import Loomcycle.Concurrency.SemaphoreCalls

/-! # The control flow of a call

Which points of its code a call can reach from which, whatever the semaphore's counters
are. What depends on nothing else (the mode a call runs in, what it will give back, the
errors it can still return) is read off here instead of off the sections. -/

namespace Loomcycle.Concurrency

/-- A wait that can only end for a reason of the caller's own. -/
def AdmitError.own : AdmitError → Bool
  | .ctx => true
  | .onQueued => true
  | _ => false

/-- The refusals each point can end in. -/
def Proc.refusable : Proc → AdmitError → Prop
  | .acquireAsk _ _, _ => True
  | .acquireTake _ _ _, _ => True
  | .reserveAsk _ _, _ => True
  | .reserveTake _ _, _ => True
  | .entering .tryAcquire, _ => True
  | .admitAsk _ _, _ => True
  | .admitPoll _ _, _ => True
  | .admitUser _ _, _ => True
  | .pollEnd _ _ err, e => err = some e
  | .admitGlobal _ acct _ holdsPlace, _ => holdsPlace = false ∨ acct.key.user = ""
  | .userWaiting _ _, e => e.own = true
  | .waiting _ _ kind _, e => kind = .acquire ∨ e.own = true
  | _, _ => False

/-- One step of a call, while a quota store is installed or not (`qs`). -/
inductive Goes (qs : Bool) : Proc → Proc → Prop
  | refused {p e} : p.refusable e → Goes qs p (.done (.refused e))
  | acquireAsk {key cap} : qs = true →
      Goes qs (.entering (.acquireForUser key)) (.acquireAsk key cap)
  | acquireTake {key cap} : Goes qs (.entering (.acquireForUser key)) (.acquireTake key qs cap)
  | acquireAnswered {key cap} : Goes qs (.acquireAsk key cap) (.acquireTake key true cap)
  | acquireHeld {key q cap} : Goes qs (.acquireTake key q cap)
      (.holding ⟨key, q, if Semaphore.countsUser cap key then .capped else .uncounted⟩ false)
  | acquireQueued {key q cap w} : Goes qs (.acquireTake key q cap)
      (.waiting w ⟨key, q, if Semaphore.countsUser cap key then .capped else .uncounted⟩ .acquire false)
  | uncounted {key} : Goes qs (.entering (.reserveUser key)) (.done .uncounted)
  | reserveAsk {key cap} : qs = true → 0 < cap → key.user ≠ "" →
      Goes qs (.entering (.reserveUser key)) (.reserveAsk key cap)
  | reserveTake {key cap} : 0 < cap → key.user ≠ "" →
      Goes qs (.entering (.reserveUser key)) (.reserveTake key cap)
  | reserveAnswered {key cap} : Goes qs (.reserveAsk key cap) (.reserved ⟨key, true, .capped⟩)
  | reserved {key cap} : Goes qs (.reserveTake key cap) (.reserved ⟨key, false, .capped⟩)
  | tried : Goes qs (.entering .tryAcquire) (.holding .none false)
  | waitHeld : Goes qs (.entering .wait) (.holding .none false)
  | waitQueued {w} : Goes qs (.entering .wait) (.waiting w .none .wait false)
  | waitUncounted {key} : Goes qs (.entering (.waitForUser key)) (.waitTake .none false)
  | countAsk {key} : qs = true → Goes qs (.entering (.waitForUser key)) (.countAsk key)
  | waitCounted {key} : key.user ≠ "" →
      Goes qs (.entering (.waitForUser key)) (.waitTake ⟨key, false, .resumed⟩ true)
  | countFailed {key} : Goes qs (.countAsk key) (.waitTake .none false)
  | countAnswered {key} : Goes qs (.countAsk key) (.waitTake ⟨key, true, .resumed⟩ false)
  | waitTakeHeld {acct b} : Goes qs (.waitTake acct b) (.holding acct false)
  | waitTakeQueued {acct b w} : Goes qs (.waitTake acct b) (.waiting w acct .wait false)
  | admitUncapped {r} : Goes qs (.entering (.admitRun r)) (.admitGlobal r.key .none r false)
  | admitAsk {r cap} : qs = true → r.key.user ≠ "" →
      Goes qs (.entering (.admitRun r)) (.admitAsk r cap)
  | admitUser {r cap} : 0 < cap → r.key.user ≠ "" →
      Goes qs (.entering (.admitRun r)) (.admitUser r cap)
  | admitSlot {key r} : Goes qs (.entering (.admitSlot key)) (.admitGlobal key .none r false)
  | admitAnswered {r cap} : Goes qs (.admitAsk r cap)
      (.admitGlobal r.key ⟨r.key, true, .capped⟩ r false)
  | admitPoll {r cap} : Goes qs (.admitAsk r cap) (.admitPoll r cap)
  | polls {r cap w} : Goes qs (.admitPoll r cap) (.polling r cap w)
  | polling {r cap w} : Goes qs (.polling r cap w) (.polling r cap w)
  | polled {r cap w} : Goes qs (.polling r cap w) (.pollEnd r w none)
  | pollCancelled {r cap w e} : e.own = true → Goes qs (.polling r cap w) (.pollEnd r w (some e))
  | pollEnd {r w} : Goes qs (.pollEnd r w none) (.admitGlobal r.key ⟨r.key, true, .capped⟩ r true)
  | userCounted {r cap} : Goes qs (.admitUser r cap)
      (.admitGlobal r.key ⟨r.key, false, .capped⟩ r false)
  | userWaits {r cap w} : Goes qs (.admitUser r cap) (.userWaiting r w)
  | userWoken {r w} : Goes qs (.userWaiting r w)
      (.admitGlobal r.key ⟨r.key, false, .capped⟩ r true)
  | globalHeld {key acct r b} : Goes qs (.admitGlobal key acct r b) (.holding acct r.slot)
  | globalQueued {key acct r b w} : Goes qs (.admitGlobal key acct r b)
      (.waiting w acct .admitRun r.slot)
  | woken {w acct kind slot} : Goes qs (.waiting w acct kind slot) (.holding acct slot)
  | ended {acct slot} : Goes qs (.holding acct slot) (.done .released)
  | unlent {acct} : Goes qs (.holding acct true) (.holding acct true)
  | lends {acct} : Goes qs (.holding acct true) (.lent acct)
  | stillLent {acct} : Goes qs (.lent acct) (.lent acct)
  | reclaimed {acct} : Goes qs (.lent acct) (.holding acct true)
  | reclaims {acct w} : Goes qs (.lent acct) (.reclaiming w acct)
  | reclaimWoken {acct w} : Goes qs (.reclaiming w acct) (.holding acct true)
  | reclaimGivenUp {acct w} : Goes qs (.reclaiming w acct) (.lent acct)
  | reclaimStuck {acct w} : Goes qs (.reclaiming w acct) (.reclaiming w acct)
  | ending {acct} : Goes qs (.lent acct) (.endingLent acct)
  | endedLent {acct} : Goes qs (.endingLent acct) (.done .released)
  | unreserved {acct} : Goes qs (.reserved acct) (.done .released)

variable {s t : Semaphore} {p' : Proc}

theorem eq_of_some {x : Semaphore × Proc} (h : some x = some (t, p')) : t = x.1 ∧ p' = x.2 := by
  cases h
  exact ⟨rfl, rfl⟩

theorem user_of_countsUser {cap : Int} {key : UserKey}
    (h : ¬ (!Semaphore.countsUser cap key) = true) : 0 < cap ∧ key.user ≠ "" := by
  simpa [Semaphore.countsUser] using h

variable {e : AdmitError} {why : CancelReason}

theorem own_of_ended {kind : WaitKind} (h : kind.ended s why = some e) :
    kind = .acquire ∨ e.own = true := by
  cases kind with
  | acquire => exact .inl rfl
  | wait => cases why <;> cases h; exact .inr rfl
  | admitRun => cases why <;> cases h <;> exact .inr rfl

theorem own_of_admit_ended (h : WaitKind.admitRun.ended s why = some e) : e.own = true :=
  (own_of_ended h).resolve_left (by decide)

end Loomcycle.Concurrency
