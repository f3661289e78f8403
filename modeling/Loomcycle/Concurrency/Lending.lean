import Loomcycle.Concurrency.SlotAccounting

/-! # Lending does not widen admission

A run that lends its slot counts against the queue bound instead, so with fixed caps the
runs alive stay within `maxConcurrent + maxQueue`, as without lending. The work that is
let in past the bound (`Wait`, `WaitForUser`) was admitted before and is left out here. -/

namespace Loomcycle.Concurrency
open Lib Lib.Transition

/-- A semaphore as it is set up at boot, before any call. -/
def World.boot (maxConcurrent maxQueue timeout maxPerUser maxQueuedPerUser : Int)
    (quotaStore : Bool) : World :=
  ⟨{ Semaphore.new maxConcurrent maxQueue timeout with
      maxPerUser, maxQueuedPerUser, quotaStore }, []⟩

/-- The entry points for new runs. -/
def Call.newRun : Call → Bool
  | .wait => false
  | .waitForUser _ => false
  | .reserveUser _ => false
  | _ => true

/-- New runs, and every step of the calls made; the caps are not touched. -/
def NewRuns (_ : World) : Label → Prop
  | .call c => c.newRun = true
  | .act _ _ => True
  | _ => False

/-- The run was let in and has not ended. -/
def Proc.alive : Proc → Bool
  | .polling _ _ _ => true
  | .pollEnd _ _ _ => true
  | .userWaiting _ _ => true
  | .admitGlobal _ _ _ holdsPlace => holdsPlace
  | .waiting _ _ _ _ => true
  | .holding _ _ => true
  | .lent _ => true
  | .reclaiming _ _ => true
  | _ => false

/-- The runs alive are those the three counters count. -/
theorem Accounts.alive_eq {s : Semaphore} {ps : List Proc} (h : Accounts s ps) :
    (ps.countP Proc.alive : Int) = s.active + s.queued + s.lent := by
  have hcount : (ps.countP Proc.alive : Int) =
      total (fun p => p.holds + p.lends + p.places) ps +
        ((waitersOf ps).countP fun _ => true : Nat) := by
    refine countP_eq_total _ _ _ fun p _ => ?_
    cases p with
    | admitGlobal key acct r holdsPlace => cases holdsPlace <;> rfl
    | _ => rfl
  have hsum : total (fun p => p.holds + p.lends + p.places) ps =
      total Proc.holds ps + total Proc.lends ps + total Proc.places ps := by
    rw [total_add, total_add]
  have hlen := h.ok.pending.length_eq
  have htok := length_eq_tokens s.tokens
  have := h.active
  have := h.lent
  have := h.queued
  simp only [Waits.pending, List.length_append, Semaphore.waits] at hlen
  simp only [Semaphore.userWaiters] at this
  rw [hcount, hsum, List.countP_true]
  omega

variable {p : Proc}

theorem Goes.newRun {qs : Bool} {p' : Proc} (h : Goes qs p p') (hn : p.newRun = true) :
    p'.newRun = true := by
  cases h <;> first | rfl | cases hn

/-- The run waits on its user's cap, in either mode. -/
def Proc.waitsOnCap : Proc → Bool
  | .userWaiting _ _ => true
  | .polling _ _ _ => true
  | _ => false

/-- Where a run that waited on its user's cap can be from then on: if it is refused, it is
for a reason of its caller's own. -/
def Proc.PastCap : Proc → Prop
  | .userWaiting r _ => r.key.user ≠ ""
  | .polling r _ _ => r.key.user ≠ ""
  | .pollEnd r _ err => r.key.user ≠ "" ∧ ∀ e, err = some e → e.own = true
  | .admitGlobal _ acct _ holdsPlace => holdsPlace = true ∧ acct.key.user ≠ ""
  | .waiting _ _ kind _ => kind = .admitRun
  | .holding _ _ => True
  | .lent _ => True
  | .reclaiming _ _ => True
  | .endingLent _ => True
  | .done o => ∀ e, o = .refused e → e.own = true
  | _ => False

theorem own_of_refusable {e : AdmitError} (hp : p.PastCap) (h : p.refusable e) : e.own = true := by
  cases p with
  | userWaiting r w => exact h
  | waiting w acct kind slot =>
    have hkind : kind = .admitRun := hp
    subst hkind
    exact h.resolve_left (by decide)
  | pollEnd r w err => exact hp.2 e h
  | admitGlobal key acct r holdsPlace =>
    rcases h with hfalse | huser
    · rw [hp.1] at hfalse
      cases hfalse
    · exact absurd huser hp.2
  | _ => first | exact h.elim | exact hp.elim

theorem Goes.pastCap {qs : Bool} {p' : Proc} (h : Goes qs p p') (hp : p.PastCap) : p'.PastCap := by
  cases h with
  | refused hr =>
    intro e he
    cases he
    exact own_of_refusable hp hr
  | polled => exact ⟨hp, fun e he => by cases he⟩
  | pollCancelled hown =>
    refine ⟨hp, fun e he => ?_⟩
    cases he
    exact hown
  | pollEnd => exact ⟨rfl, hp.1⟩
  | userWoken => exact ⟨rfl, hp⟩
  | ended | endedLent => exact fun e he => by cases he
  | _ => trivial

/-- Along any run a call that waited on its user's cap stays past it. -/
theorem pastCap_of_run {P : World → Label → Prop} {w w' : World} {i : Nat} (h : Run step P w w')
    (hb : w.Balanced) (hp : w.procs[i]? = some p) (hc : p.PastCap) :
    ∃ q, w'.procs[i]? = some q ∧ q.PastCap := by
  have hboth : w'.Balanced ∧ ∃ q, w'.procs[i]? = some q ∧ q.PastCap := by
    refine h.invariant (I := fun w => w.Balanced ∧ ∃ q, w.procs[i]? = some q ∧ q.PastCap)
      ?_ ⟨hb, p, hp, hc⟩
    rintro u l v ⟨hb, q, hq, hqc⟩ - hs
    refine ⟨(balanced_step hb hs).balanced, ?_⟩
    cases l with
    | call c =>
      cases hs
      exact ⟨q, Pool.arrive_of hq, hqc⟩
    | act j a =>
      obtain ⟨r, r', rest, ha, hr, hset, -⟩ := step_act hs
      rw [hset]
      by_cases hij : j = i
      · subst hij
        obtain rfl : q = r := Option.mem_unique hq hr
        exact ⟨r', Pool.move_self hq, (acts_act ha).goes.pastCap hqc⟩
      · exact ⟨q, by rw [List.getElem?_set_ne hij, hq], hqc⟩
    | withPerUserCap n order =>
      simp only [step] at hs
      split at hs <;> cases hs
      exact ⟨q, hq, hqc⟩
    | _ =>
      cases hs
      exact ⟨q, hq, hqc⟩
  exact hboth.2

/-- The bounds that fixed caps give, and that only new runs are in progress. -/
structure World.Bounded (m q : Int) (w : World) : Prop where
  balanced : w.Balanced
  newRun : ∀ p ∈ w.procs, p.newRun = true
  maxConcurrent : w.sem.maxConcurrent = m
  maxQueue : w.sem.maxQueue = q
  active : w.sem.active ≤ m
  queued : w.sem.queued + w.sem.lent ≤ q

theorem bounded_step {m q : Int} {w w' : World} {l : Label} (hb : w.Bounded m q)
    (hP : NewRuns w l) (h : step w l = some w') : w'.Bounded m q := by
  have hbal := (balanced_step hb.balanced h).balanced
  have hnewRun : ∀ p ∈ w'.procs, p.newRun = true := by
    refine forall_procs_step (fun c hl => ?_) (fun _ ha => (acts_act ha).goes.newRun) hb.newRun h
    subst hl
    have hc : c.newRun = true := hP
    cases c <;> first | rfl | cases hc
  cases l with
  | call c =>
    cases h
    exact ⟨hbal, hnewRun, hb.maxConcurrent, hb.maxQueue, hb.active, hb.queued⟩
  | act i a =>
    obtain ⟨p, p', rest, hp, -, -, -, hs⟩ := balanced_act hb.balanced h
    have hnew : p.newRun = true := hb.newRun p (List.mem_of_getElem? hp)
    have hm : w'.sem.maxConcurrent = w.sem.maxConcurrent := congrArg Prod.fst hs.config
    have hq : w'.sem.maxQueue = w.sem.maxQueue := congrArg (fun c => c.2.1) hs.config
    have hactive := hb.active
    have hqueued := hb.queued
    rw [← hb.maxConcurrent] at hactive ⊢
    rw [← hb.maxQueue] at hqueued ⊢
    refine ⟨hbal, hnewRun, hm, hq, ?_, ?_⟩
    · by_cases hlt : w.sem.active < w'.sem.active
      · exact hs.grows hlt
      · omega
    · rcases hs.fills hnew with hle | hle <;> omega
  | _ => exact hP.elim

/-- With fixed caps and new runs only: `active` stays within `maxConcurrent`, the queued and
lent runs within `maxQueue`, so the runs alive within their sum; and a run that waits on
its user's cap is, whatever happens afterwards, never refused for want of a place or a
slot. -/
theorem lending_bounded_of_run
    {maxConcurrent maxQueue timeout maxPerUser maxQueuedPerUser : Int} {quotaStore : Bool}
    {w : World} (hmax : 0 ≤ maxConcurrent) (hqueue : 0 ≤ maxQueue)
    (h : Run step NewRuns
      (World.boot maxConcurrent maxQueue timeout maxPerUser maxQueuedPerUser quotaStore) w) :
    w.sem.active ≤ maxConcurrent ∧ w.sem.queued + w.sem.lent ≤ maxQueue ∧
      (w.procs.countP Proc.alive : Int) ≤ maxConcurrent + maxQueue ∧
      ∀ (i : Nat) (p : Proc), w.procs[i]? = some p → p.waitsOnCap = true →
        ∀ w', Run step NewRuns w w' →
          ∀ msg, w'.procs[i]? ≠ some (Proc.done (.refused (.backpressure msg))) := by
  have hb : w.Bounded maxConcurrent maxQueue :=
    h.invariant (fun _ _ _ hb hP hs => bounded_step hb hP hs)
      ⟨⟨(balanced_init _ _ _).accounts.recap rfl, fun _ => rfl⟩, (fun _ hp => by cases hp), rfl, rfl, hmax, hqueue⟩
  refine ⟨hb.active, hb.queued, ?_, ?_⟩
  · have halive := hb.balanced.accounts.alive_eq
    have := hb.active
    have := hb.queued
    omega
  · intro i p hp hwaits w' hrun msg hrefused
    have hsound := hb.balanced.accounts.sound p (List.mem_of_getElem? hp)
    have hpast : p.PastCap := by
      cases p with
      | userWaiting r x => exact hsound.2.2
      | polling r cap x => exact hsound
      | _ => cases hwaits
    obtain ⟨q, hq, hqp⟩ := pastCap_of_run hrun hb.balanced hp hpast
    obtain rfl : _ = q := Option.mem_unique hrefused hq
    exact absurd (hqp _ rfl) (by simp [AdmitError.own])

/-- One slot and room for two: a run lends its slot to another user's, and the first user's
second run waits on the user's cap of one. -/
def lentAtCapTrace : List Label :=
  [.call (.admitRun { userID := "alice", slot := true }), .act 0 .proceed, .act 0 .proceed,
    .act 0 .proceed,
    .call (.admitSlot ⟨"", "bob"⟩), .act 1 .proceed,
    .act 0 .lend, .act 1 .proceed,
    .call (.admitRun { userID := "alice" }), .act 2 .proceed, .act 2 .proceed]

/-- The bounds are reached, and the run waiting on the cap is never turned away. -/
theorem lending_bounded_at_cap :
    ∃ w, Run step NewRuns (World.boot 1 2 0 1 1 false) w ∧
      (w.sem.active, w.sem.queued, w.sem.lent) = (1, 1, 1) ∧
      (w.procs.countP Proc.alive : Int) ≤ 1 + 2 ∧
      ∀ w', Run step NewRuns w w' →
        ∀ msg, w'.procs[2]? ≠ some (Proc.done (.refused (.backpressure msg))) := by
  have hlabels : ∀ a ∈ lentAtCapTrace, ∀ u, NewRuns u a := by
    simp [lentAtCapTrace, NewRuns, Call.newRun]
  obtain ⟨w, hrun, hcounts, hproc⟩ := exists_run_of_exec step (World.boot 1 2 0 1 1 false) _
    (p := fun w => (w.sem.active, w.sem.queued, w.sem.lent) = (1, 1, 1) ∧
      (w.procs[2]?).map Proc.waitsOnCap = some true) hlabels (by decide +kernel)
  obtain ⟨p, hp, hwaits⟩ := Option.map_eq_some_iff.mp hproc
  obtain ⟨-, -, halive, hpast⟩ := lending_bounded_of_run (by decide) (by decide) hrun
  exact ⟨w, hrun, hcounts, halive, hpast 2 p hp hwaits⟩

end Loomcycle.Concurrency
