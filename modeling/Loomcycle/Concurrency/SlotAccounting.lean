import Loomcycle.Concurrency.SemaphoreRuns

/-! # Slot accounting

The three counters of the semaphore say what they are named for, whoever asks and
whenever: `active` is the holders of a global slot, `lent` the runs that lent theirs,
`queued` the waiters and the runs that keep a place. -/

namespace Loomcycle.Concurrency
open Lib Lib.Transition

/-- It holds a global slot: it was given one, or it was handed one while it waited and has
not resumed yet. -/
def Proc.holdsSlot (s : Semaphore) : Proc → Bool
  | .holding _ _ => true
  | .waiting w _ _ _ => w ∉ s.admitted ∧ w ∉ s.queue.waiters
  | .reclaiming w _ => w ∉ s.admitted ∧ w ∉ s.queue.waiters
  | _ => false

/-- Its run slot is lent, the run has not ended and it is not waiting in `Reclaim`. -/
def Proc.slotLent : Proc → Bool
  | .lent _ => true
  | _ => false

/-- It moved on from its user's cap and still holds its place in the queue. -/
def Proc.keepsPlace (s : Semaphore) : Proc → Bool
  | .userWaiting r w => w ∉ s.userWait.get r.key
  | .admitGlobal _ _ _ holdsPlace => holdsPlace
  | _ => false

/-- The counters are what they count. -/
structure World.SlotsAccounted (w : World) : Prop where
  active : w.sem.active = w.procs.countP (Proc.holdsSlot w.sem)
  lent : w.sem.lent = w.procs.countP Proc.slotLent
  queued : w.sem.queued = w.sem.admitted.length + w.sem.queue.waiters.length +
    w.sem.userWait.values.length + w.procs.countP (Proc.keepsPlace w.sem)
  idle : w.sem.active < w.sem.maxConcurrent → w.sem.admitted = [] ∧ w.sem.queue.waiters = []

variable {ps : List Proc} {s : Semaphore}

/-- Counting calls by their waiters: `f` is what the calls without one add. -/
theorem countP_eq_total (f : Proc → Nat) (g : SemWaiter → Bool) (b : Proc → Bool)
    (h : ∀ p ∈ ps, (if b p then 1 else 0) = f p + (p.waiter?.toList.countP g)) :
    (ps.countP b : Int) = total f ps + ((waitersOf ps).countP g : Nat) := by
  induction ps with
  | nil => rfl
  | cons p ps ih =>
    have hp := h p List.mem_cons_self
    have hps := ih fun q hq => h q (List.mem_cons_of_mem p hq)
    rw [List.countP_cons, total_cons, waitersOf_cons, List.countP_append]
    omega

section

variable (h : Accounts s ps)
include h

/-- Counting waiters by a test that nobody in a queue passes. -/
theorem Accounts.countP_tokens {g g' : SemWaiter → Bool}
    (hslot : ∀ w ∈ s.slotWaiters, g w = false) (huser : ∀ w ∈ s.userWait.values, g w = false)
    (htok : ∀ w ∈ s.tokens, g w = g' w) : (waitersOf ps).countP g = s.tokens.countP g' := by
  have hzero : ∀ {l : List SemWaiter}, (∀ w ∈ l, g w = false) → l.countP g = 0 := fun hl =>
    List.countP_eq_zero.mpr fun w hw => by simp [hl w hw]
  rw [h.ok.pending.countP_eq, Waits.pending, List.countP_append, List.countP_append]
  have htokens : s.tokens.countP g = s.tokens.countP g' :=
    List.countP_congr fun w hw => by rw [htok w hw]
  change s.slotWaiters.countP g + (s.userWait.values.countP g + s.tokens.countP g) = _
  rw [hzero hslot, hzero huser, htokens, Nat.zero_add, Nat.zero_add]

theorem Accounts.active_eq : s.active = ps.countP (Proc.holdsSlot s) := by
  -- a waiter for a slot that is in no queue has its token
  let g : SemWaiter → Bool := fun w => !w.forCap && decide (w ∉ s.slotWaiters)
  have hcount : (ps.countP (Proc.holdsSlot s) : Int) =
      total Proc.holds ps + ((waitersOf ps).countP g : Nat) := by
    refine countP_eq_total _ g _ fun p hp => ?_
    have hs := h.sound p hp
    cases p with
    | userWaiting r w =>
      have hw : w.forCap = true := hs.1
      simp [Proc.holdsSlot, Proc.holds, Proc.waiter?, g, hw]
    | waiting w acct kind slot | reclaiming w acct =>
      have hw : w.forCap = false := hs
      simp [Proc.holdsSlot, Proc.holds, Proc.waiter?, g, hw, Semaphore.slotWaiters,
        List.countP_cons]
    | _ => rfl
  have htok : (waitersOf ps).countP g = s.tokens.countP fun w => !w.forCap := by
    refine h.countP_tokens (fun w hw => ?_) (fun w hw => ?_) fun w hw => ?_
    · simp [g, hw]
    · simp [g, h.ok.forCap_of_mem hw]
    · have hn : w ∉ s.slotWaiters := fun hs =>
        (List.nodup_append.mp h.ok.nodup_slot).2.2 w hs w hw rfl
      simp [g, hn]
  rw [hcount, htok, h.active]
  rfl

theorem Accounts.lent_eq : s.lent = ps.countP Proc.slotLent := by
  have hcount : (ps.countP Proc.slotLent : Int) =
      total Proc.lends ps + ((waitersOf ps).countP fun _ => false : Nat) := by
    refine countP_eq_total _ _ _ fun p _ => ?_
    cases p <;> simp [Proc.slotLent, Proc.lends]
  rw [hcount, h.lent]
  simp

/-- A run waiting on its user's cap that is in no list has its token. -/
theorem Accounts.countP_woken (q : SemWaiter → Bool) :
    (waitersOf ps).countP (fun w => w.forCap && decide (w ∉ s.userWait.get w.key) && q w) =
      s.tokens.countP fun w => w.forCap && q w := by
  refine h.countP_tokens (fun w hw => ?_) (fun w hw => ?_) fun w hw => ?_
  · simp [h.ok.slot w hw]
  · obtain ⟨k, hk⟩ := Multimap.mem_values.mp hw
    obtain ⟨-, rfl⟩ := h.ok.cap k w hk
    have hk : w ∈ s.userWait.get w.key := hk
    simp [hk]
  · have hn : w ∉ s.userWait.get w.key := fun hs =>
      (List.nodup_append.mp h.ok.nodup_cap).2.2 w (Multimap.mem_values.mpr ⟨_, hs⟩) w hw rfl
    simp [hn]

theorem Accounts.queued_eq (hl : ∀ p ∈ ps, p.Local) :
    s.queued = s.admitted.length + s.queue.waiters.length + s.userWait.values.length +
      ps.countP (Proc.keepsPlace s) := by
  have hcount : (ps.countP (Proc.keepsPlace s) : Int) = total Proc.places ps +
      ((waitersOf ps).countP fun w =>
        w.forCap && decide (w ∉ s.userWait.get w.key) && true : Nat) := by
    refine countP_eq_total _ _ _ fun p hp => ?_
    have hs := h.sound p hp
    have hlp := hl p hp
    cases p with
    | userWaiting r w =>
      obtain ⟨hw, hk, -⟩ := hs
      simp [Proc.keepsPlace, Proc.places, Proc.waiter?, hw, hk, List.countP_cons]
    | waiting w acct kind slot | reclaiming w acct =>
      have hw : w.forCap = false := hs
      simp [Proc.keepsPlace, Proc.places, Proc.waiter?, hw]
    | polling r cap w => exact hlp.elim
    | pollEnd r w err => exact hlp.elim
    | _ => rfl
  have htok : (waitersOf ps).countP
      (fun w => w.forCap && decide (w ∉ s.userWait.get w.key) && true) =
        s.tokens.countP SemWaiter.forCap := by
    rw [h.countP_woken]
    exact List.countP_congr fun w _ => by simp
  have hlen : s.slotWaiters.length = s.admitted.length + s.queue.waiters.length :=
    List.length_append
  have hq := h.queued
  simp only [capTokens, Semaphore.userWaiters] at hq
  rw [hcount, htok]
  omega

end

/-- In single-replica mode, whatever interleaves: in every reachable state the counters are
what they count and no waiter is left beside a free slot; a step that raises `active`
leaves it within the cap in force; and it can only come to exceed the cap by a `SetCaps`
that lowers it. -/
theorem slots_accounted_of_run {maxConcurrent maxQueue timeout : Int} {w : World}
    (h : Run step SingleReplica (World.init maxConcurrent maxQueue timeout) w) :
    w.SlotsAccounted ∧
      ∀ l w', step w l = some w' →
        (w.sem.active < w'.sem.active → w'.sem.active ≤ w'.sem.maxConcurrent) ∧
        (w.sem.active ≤ w.sem.maxConcurrent → w'.sem.maxConcurrent < w'.sem.active →
          ∃ m q, l = .setCaps m q ∧ m < w.sem.maxConcurrent ∧ w'.sem.active ≤ w.sem.active) := by
  have hb := balanced_of_run h
  have hl := local_of_run h
  refine ⟨⟨hb.accounts.active_eq, hb.accounts.lent_eq, hb.accounts.queued_eq hl.procs, ?_⟩, ?_⟩
  · intro hact
    exact List.append_eq_nil_iff.mp (hb.idle hact)
  · intro l w' hs
    obtain ⟨-, hgrows, hcap⟩ := balanced_step hb hs
    refine ⟨hgrows, fun hle hover => ?_⟩
    have hdown : w'.sem.active ≤ w.sem.active := by
      by_contra hlt
      have := hgrows (by omega)
      omega
    rcases hcap with hsame | ⟨m, q, rfl, hm⟩
    · omega
    · exact ⟨m, q, rfl, by omega, hdown⟩

/-- Two runs ask for the only slot, the first lends it, a third run asks. -/
def lendTrace : List Label :=
  [.call (.admitRun { userID := "alice", slot := true }), .act 0 .proceed, .act 0 .proceed,
    .call (.admitRun { userID := "bob" }), .act 1 .proceed, .act 1 .proceed,
    .act 0 .lend,
    .call (.admitRun { userID := "carol" }), .act 2 .proceed, .act 2 .proceed]

/-- The lent slot is in the second run's channel and the third waits. -/
theorem slots_accounted_of_lend :
    ∃ w, Run step SingleReplica (World.init 1 2 0) w ∧
      (w.sem.active, w.sem.lent, w.sem.queued) = (1, 1, 1) ∧ w.SlotsAccounted := by
  have hlabels : ∀ a ∈ lendTrace, a ≠ .withUserQuotaStore true := by decide
  obtain ⟨w, hrun, hw⟩ := exists_run_of_exec step (World.init 1 2 0) _
    (p := fun w => (w.sem.active, w.sem.lent, w.sem.queued) = (1, 1, 1))
    (fun a ha _ => hlabels a ha) (by decide +kernel)
  exact ⟨w, hrun, hw, (slots_accounted_of_run hrun).1⟩

end Loomcycle.Concurrency
