import Loomcycle.Concurrency.LaneMoves
import Loomcycle.Concurrency.SemaphoreRuns
import Loomcycle.Lib.Turns

/-! The order in which the waiters of the semaphore and of a lane are served: the places they are
told are exact, and no bucket is served twice while another waits. -/

namespace Loomcycle.Concurrency

open Lib Lib.RoundRobin Lib.Transition

/-! ## Reported places -/

namespace Semaphore

/-- The waiters served before `w`, plus one. -/
def positionLocked (s : Semaphore) (w : SemWaiter) : Nat :=
  match s.queue.1.buckets w.key with
  | none => 0
  | some _ => s.admitted.length + s.queue.1.ahead SemWaiter.key w + 1

variable {s s' : Semaphore} {w x : SemWaiter}

theorem positionLocked_eq (hw : w ∈ s.queue.waiters) :
    s.positionLocked w = s.admitted.length + s.queue.1.ahead SemWaiter.key w + 1 := by
  have hmem : w ∈ s.queue.1.bucket w.key := s.queue.2.mem_waiters.mp hw
  unfold positionLocked
  cases hb : s.queue.1.buckets w.key with
  | none => simp [Rotation.bucket, hb] at hmem
  | some l => rfl

theorem pop_val {q q' : SemQueue} (h : q.pop = some (x, q')) : q.1.pop = some (x, q'.1) := by
  unfold SemQueue.pop at h
  split at h
  · cases h
  · next y r hp => cases h; exact hp

/-- A call of `nextWaiter` that returns another brings `w` one place forward. -/
theorem positionLocked_nextWaiter (hw : w ∈ s.queue.waiters) (hnot : w ∉ s.admitted)
    (h : s.nextWaiter = some (x, s')) :
    x = w ∧ s.positionLocked w = 1 ∨ x ≠ w ∧ (w ∈ s'.queue.waiters ∧ w ∉ s'.admitted) ∧
      s.positionLocked w = s'.positionLocked w + 1 := by
  rw [positionLocked_eq hw]
  unfold nextWaiter at h
  split at h
  · next y rest ha =>
    cases h
    rw [ha, List.mem_cons, not_or] at hnot
    refine .inr ⟨Ne.symm hnot.1, ⟨hw, hnot.2⟩, ?_⟩
    have hpos := positionLocked_eq (s := { s with admitted := rest }) hw
    rw [hpos, ha, List.length_cons]
    dsimp only
    omega
  · next ha =>
    split at h
    · cases h
    obtain ⟨⟨y, q⟩, hp, he⟩ := Option.map_eq_some_iff.mp h
    cases he
    rcases s.queue.2.ahead_pop hw (pop_val hp) with ⟨hx, hzero⟩ | ⟨hne, hw', hdrop⟩
    · exact .inl ⟨hx, by rw [ha, hzero]; rfl⟩
    · refine .inr ⟨hne, ⟨hw', ?_⟩, ?_⟩
      · rw [ha]; exact List.not_mem_nil
      · rw [positionLocked_eq (s := { s with queue := q, tickets := untrack s.tickets x }) hw',
          hdrop]
        rfl

theorem servedAfter_positionLocked (hw : w ∈ s.queue.waiters) (hnot : w ∉ s.admitted) :
    ServedAfter nextWaiter s w (s.positionLocked w - 1) := by
  refine servedAfter_of_step (fun s : Semaphore => w ∈ s.queue.waiters ∧ w ∉ s.admitted)
    (fun s => s.positionLocked w - 1) ?_ ⟨hw, hnot⟩
  rintro s ⟨hw, hnot⟩
  cases hnext : s.nextWaiter with
  | none =>
    have hnil := nextWaiter_none hnext
    rw [slotWaiters, List.append_eq_nil_iff] at hnil
    rw [hnil.2] at hw
    cases hw
  | some r =>
    obtain ⟨x, s'⟩ := r
    rcases positionLocked_nextWaiter hw hnot hnext with ⟨rfl, hone⟩ | ⟨hne, hkept, hdrop⟩
    · exact .inl ⟨s', rfl, by rw [hone]⟩
    · refine .inr ⟨x, s', rfl, hne, hkept, ?_⟩
      rw [hdrop, positionLocked_eq hkept.1]
      omega

end Semaphore

namespace LaneQueue

/-- The waiters the queue serves before `w`. -/
def ahead (q : LaneQueue) (w : LaneWaiter) : Nat := q.1.ahead LaneWaiter.key w

variable {q q' : LaneQueue} {w x : LaneWaiter}

/-- `pop` with every waiter eligible. -/
def popAny (q : LaneQueue) : Option (LaneWaiter × LaneQueue) := q.pop fun _ => true

theorem popAny_val (h : q.popAny = some (x, q')) : q.1.pop = some (x, q'.1) := by
  unfold popAny pop at h
  split at h
  · cases h
  · next y r hp =>
    cases h
    rwa [q.2.popWhere_true] at hp

theorem servedAfter_ahead (hw : w ∈ q.waiters) : ServedAfter popAny q w (q.ahead w) := by
  refine servedAfter_of_step (fun q : LaneQueue => w ∈ q.waiters) (fun q => q.ahead w) ?_ hw
  intro q hw
  cases hpop : q.popAny with
  | none => exact absurd (LaneQueue.pop_eq_none.mp hpop w hw) (by simp)
  | some r =>
    obtain ⟨x, q'⟩ := r
    rcases q.2.ahead_pop hw (popAny_val hpop) with ⟨rfl, hzero⟩ | ⟨hne, hw', hdrop⟩
    · exact .inl ⟨q', rfl, hzero⟩
    · exact .inr ⟨x, q', rfl, hne, hw', hdrop⟩

end LaneQueue

/-- In every reachable state of the semaphore a waiter of the queue is told the number of the
`nextWaiter` call that returns it, and `ahead` counts the waiters a lane's queue serves before. -/
theorem positions_exact {P : World → Label → Prop} {maxConcurrent maxQueue timeout : Int}
    {world : World} (h : Run step P (World.init maxConcurrent maxQueue timeout) world) :
    (∀ w ∈ world.sem.queue.waiters, ∀ k,
      world.sem.positionLocked w = k + 1 ↔ ServedAfter Semaphore.nextWaiter world.sem w k) ∧
    ∀ q : LaneQueue, ∀ w ∈ q.waiters, ∀ k,
      q.ahead w = k ↔ ServedAfter LaneQueue.popAny q w k := by
  refine ⟨fun w hw k => ?_, fun q w hw k => ?_⟩
  · have hnodup : (world.sem.admitted ++ world.sem.queue.waiters).Nodup :=
      (balanced_of_run h).accounts.ok.nodup_slot.sublist (List.sublist_append_left _ _)
    have hnot : w ∉ world.sem.admitted := fun ha =>
      (List.nodup_append.mp hnodup).2.2 w ha w hw rfl
    have hserved := Semaphore.servedAfter_positionLocked hw hnot
    constructor
    · intro heq
      rwa [heq] at hserved
    · intro hk
      have heq := hserved.unique hk
      rw [Semaphore.positionLocked_eq hw] at heq ⊢
      omega
  · have hserved := LaneQueue.servedAfter_ahead hw
    exact ⟨fun heq => heq ▸ hserved, fun hk => hserved.unique hk⟩

/-- One run holds the slot; two of `bob` and one of `carol` queue, and an admitted call waits. -/
def queueTrace : List Label :=
  [.call (.admitRun { userID := "alice" }), .act 0 .proceed, .act 0 .proceed,
    .call (.admitRun { userID := "bob" }), .act 1 .proceed, .act 1 .proceed,
    .call (.admitRun { userID := "bob" }), .act 2 .proceed, .act 2 .proceed,
    .call (.admitRun { userID := "carol" }), .act 3 .proceed, .act 3 .proceed,
    .call .wait, .act 4 .proceed]

/-- The second of `bob` is served after the admitted call, his first and `carol`'s. -/
theorem positions_exact_second : ∃ (world : World) (w : SemWaiter),
    Run step Any (World.init 1 9 0) world ∧ w.key = ⟨"", "bob"⟩ ∧
    world.sem.positionLocked w = 4 ∧ ServedAfter Semaphore.nextWaiter world.sem w 3 := by
  obtain ⟨world, hrun, w, hmem, hkey, hpos⟩ := exists_run step (World.init 1 9 0) queueTrace
    (p := fun world => ∃ w ∈ world.sem.queue.waiters, w.key = ⟨"", "bob"⟩ ∧
      world.sem.positionLocked w = 4) (by decide +kernel)
  exact ⟨world, w, hrun, hkey, hpos, ((positions_exact hrun).1 w hmem 3).mp hpos⟩

/-! ## The order of the queue -/

namespace SemQueue

/-- A queue, with what was pushed and what left it. -/
structure History where
  queue : SemQueue := .empty
  pushed : List SemWaiter := []
  popped : List SemWaiter := []
  removed : List SemWaiter := []

inductive Op
  | push (w : SemWaiter)
  | pop
  | remove (w : SemWaiter)
  deriving DecidableEq, Repr

/-- `pop` is called on a queue that has a waiter; `remove` of one that has left does nothing. -/
def History.step (h : History) : Op → Option History
  | .push w => some { h with queue := h.queue.push w, pushed := h.pushed ++ [w] }
  | .pop => h.queue.pop.map fun (w, q) => { h with queue := q, popped := h.popped ++ [w] }
  | .remove w =>
    match h.queue.remove w with
    | some q => some { h with queue := q, removed := h.removed ++ [w] }
    | none => some h

/-- The waiters of `key`, in their order. -/
def ofKey (key : UserKey) (l : List SemWaiter) : List SemWaiter := l.filter (·.key = key)

/-- Nobody is lost or duplicated, and what is left of a bucket follows what was served of it. -/
structure History.Ordered (h : History) : Prop where
  perm : h.pushed.Perm (h.popped ++ h.removed ++ h.queue.waiters)
  order : ∀ key, (ofKey key h.popped ++ h.queue.1.bucket key).Sublist (ofKey key h.pushed)

variable {h t : History} {q q' : SemQueue} {w : SemWaiter} {op : Op}

theorem remove_val (hr : q.remove w = some q') : q.1.remove SemWaiter.key w = some q'.1 := by
  unfold remove at hr
  split at hr
  · cases hr
  · next r hrem => cases hr; exact hrem

theorem ofKey_append (key : UserKey) (l l' : List SemWaiter) :
    ofKey key (l ++ l') = ofKey key l ++ ofKey key l' := List.filter_append ..

theorem ofKey_singleton (key : UserKey) (w : SemWaiter) :
    ofKey key [w] = if w.key = key then [w] else [] := by
  simp [ofKey, List.filter_cons]

theorem ordered_step (ho : h.Ordered) (hs : h.step op = some t) : t.Ordered := by
  cases op with
  | push w =>
    cases hs
    refine ⟨?_, fun key => ?_⟩
    · -- what was pushed is behind what was there
      refine (ho.perm.append_right [w]).trans ?_
      rw [List.append_assoc]
      exact (h.queue.waiters_push w).symm.append_left _
    · rw [ofKey_append, ofKey_singleton]
      by_cases hkey : w.key = key
      · subst hkey
        rw [if_pos rfl, push, Rotation.bucket_push, ← List.append_assoc]
        exact (ho.order w.key).append_right [w]
      · rw [if_neg hkey, push, Rotation.bucket_push_of_ne w (Ne.symm hkey), List.append_nil]
        exact ho.order key
  | pop =>
    obtain ⟨⟨w, q⟩, hp, he⟩ := Option.map_eq_some_iff.mp hs
    cases he
    refine ⟨?_, fun key => ?_⟩
    · refine ho.perm.trans ?_
      refine ((waiters_of_pop hp).append_left _).trans ?_
      rw [List.append_assoc, List.append_assoc, List.append_assoc]
      refine List.Perm.append_left _ ?_
      exact List.perm_middle
    · have hbucket := h.queue.2.bucket_pop (Semaphore.pop_val hp) key
      have hbefore := ho.order key
      rwa [ofKey_append, ofKey_singleton, List.append_assoc, ← hbucket]
  | remove w =>
    simp only [History.step] at hs
    split at hs
    · next q hrem =>
      cases hs
      refine ⟨?_, fun key => ?_⟩
      · refine ho.perm.trans (((waiters_of_remove hrem).append_left _).trans ?_)
        rw [List.append_assoc, List.append_assoc, List.append_assoc]
        exact List.Perm.refl _
      · refine List.Sublist.trans ?_ (ho.order key)
        refine List.Sublist.append (List.Sublist.refl _) ?_
        rw [Rotation.bucket_remove (remove_val hrem) key]
        split
        · exact List.erase_sublist
        · exact List.Sublist.refl _
    · cases hs
      exact ho

/-- `key` has a waiter, and it is not one of his that is served. -/
def Waiting (key : UserKey) (h : History) (op : Op) : Prop :=
  h.queue.1.bucket key ≠ [] ∧ (op = .pop → ∀ r ∈ h.queue.pop, r.1.key ≠ key)

instance (key : UserKey) (h : History) (op : Op) : Decidable (Waiting key h op) := by
  unfold Waiting; infer_instance

/-- Since `h`, others than `key` were served, each once; as long as `key` waits, none of them has
its turn before. -/
structure Served (key : UserKey) (h t : History) (served : List SemWaiter) : Prop where
  popped : t.popped = h.popped ++ served
  once : (served.map SemWaiter.key).Nodup
  behind : key ∈ t.queue.1.ring → ∀ j ∈ served.map SemWaiter.key, j ∉ t.queue.1.before key

variable {key : UserKey} {served : List SemWaiter}

theorem served_pop {u : History} (hs : Served key h t served) (hring : key ∈ t.queue.1.ring)
    (hp : t.queue.pop = some (w, q)) (hne : w.key ≠ key)
    (hu : u = { t with queue := q, popped := t.popped ++ [w] }) :
    Served key h u (served ++ [w]) := by
  subst hu
  have hbefore := t.queue.2.before_pop hring (Semaphore.pop_val hp) hne
  have hnodup := t.queue.2.nodup_before (k := key)
  rw [hbefore, List.nodup_cons] at hnodup
  have hfresh : w.key ∉ served.map SemWaiter.key := fun hmem =>
    hs.behind hring w.key hmem (by rw [hbefore]; exact List.mem_cons_self)
  refine ⟨by rw [hs.popped, List.append_assoc], ?_, fun _ j hj hmem => ?_⟩
  · rw [List.map_append, List.map_singleton, ← List.concat_eq_append]
    exact hs.once.concat hfresh
  · rw [List.map_append, List.mem_append] at hj
    rcases hj with hj | hj
    · exact hs.behind hring j hj (by rw [hbefore]; exact List.mem_cons_of_mem _ hmem)
    · rw [List.map_singleton, List.mem_singleton] at hj
      subst hj
      exact hnodup.1 hmem

theorem served_step {u : History} (hs : Served key h t served) (hwait : Waiting key t op)
    (hstep : t.step op = some u) : ∃ served', Served key h u served' := by
  have hring : key ∈ t.queue.1.ring := by
    rw [t.queue.2.mem_ring]
    cases hb : t.queue.1.buckets key with
    | none => exact absurd (by simp [Rotation.bucket, hb]) hwait.1
    | some l => rfl
  cases op with
  | push w =>
    cases hstep
    refine ⟨served, hs.popped, hs.once, fun _ => ?_⟩
    have hsame : (t.queue.push w).1.before key = t.queue.1.before key :=
      Rotation.before_push hring
    rw [hsame]
    exact hs.behind hring
  | pop =>
    obtain ⟨⟨w, q⟩, hp, he⟩ := Option.map_eq_some_iff.mp hstep
    exact ⟨_, served_pop hs hring hp (hwait.2 rfl _ hp) he.symm⟩
  | remove w =>
    simp only [History.step] at hstep
    split at hstep
    · next q hrem =>
      cases hstep
      refine ⟨served, hs.popped, hs.once, fun hring' j hj hmem => ?_⟩
      exact hs.behind hring j hj
        ((t.queue.2.before_remove (remove_val hrem) hring').subset hmem)
    · cases hstep
      exact ⟨served, hs⟩

theorem served_run (hr : Run History.step (Waiting key) h t) : ∃ served, Served key h t served := by
  have hstart : Served key h h [] := ⟨(List.append_nil _).symm, List.nodup_nil, nofun⟩
  refine hr.invariant (I := fun t => ∃ served, Served key h t served) ?_ ⟨[], hstart⟩
  rintro u op v ⟨served, hs⟩ hwait hstep
  exact served_step hs hwait hstep

/-- Over any pushes, pops and removals: the ring lists the buckets of the map, which are not
empty, once each; `n` counts the waiters; who was pushed was popped, or removed, or waits, and the
waiters of a key are popped in push order; and while a key waits without being served, each other
key is served at most once. -/
theorem queue_fair (hr : Run History.step Any {} h) :
    (h.queue.1.ring.Nodup ∧ (∀ key, key ∈ h.queue.1.ring ↔ (h.queue.1.buckets key).isSome) ∧
      ∀ key, h.queue.1.buckets key ≠ some []) ∧
    h.queue.1.n = (h.queue.1.ring.map fun key => (h.queue.1.bucket key).length).sum ∧
    h.pushed.Perm (h.popped ++ h.removed ++ h.queue.waiters) ∧
    (∀ key, (ofKey key h.popped ++ h.queue.1.bucket key).Sublist (ofKey key h.pushed)) ∧
    ∀ key t, Run History.step (Waiting key) h t →
      ∃ served, t.popped = h.popped ++ served ∧ ∀ j, (served.map SemWaiter.key).count j ≤ 1 := by
  have ho : h.Ordered := by
    refine hr.invariant (fun _ _ _ ho _ hs => ordered_step ho hs) ⟨List.Perm.refl _, fun key => ?_⟩
    exact List.Sublist.refl _
  refine ⟨⟨h.queue.2.nodup, h.queue.2.mem_ring, h.queue.2.nonempty⟩, ?_, ho.perm, ho.order, ?_⟩
  · rw [h.queue.2.count, Rotation.waiters, List.length_flatMap]
  · intro key t hwait
    obtain ⟨served, hs⟩ := served_run hwait
    exact ⟨served, hs.popped, fun j => List.nodup_iff_count_le_one.mp hs.once j⟩

/-- The waiters of the sample: two of `bob`, two of `carol`. -/
def sampleWaiter (id : Nat) (user : String) : SemWaiter := { id, key := ⟨"", user⟩ }

/-- `bob` was served and waits again; until his next turn, `carol` is served once. -/
theorem queue_fair_served : ∃ h t : History, Run History.step Any {} h ∧
    Run History.step (Waiting ⟨"", "bob"⟩) h t ∧ t.queue.1.bucket ⟨"", "carol"⟩ ≠ [] ∧
    ∃ served, t.popped = h.popped ++ served ∧ served ≠ [] ∧
      (served.map SemWaiter.key).count ⟨"", "carol"⟩ ≤ 1 := by
  obtain ⟨h, hrun, hmore⟩ := exists_run History.step {}
    [.push (sampleWaiter 0 "bob"), .push (sampleWaiter 1 "carol"), .push (sampleWaiter 2 "bob"),
      .pop] (p := fun h => (exec (guarded History.step (Waiting ⟨"", "bob"⟩)) h
        [.push (sampleWaiter 3 "carol"), .pop]).any fun t =>
      decide (t.queue.1.bucket ⟨"", "carol"⟩ ≠ [] ∧ t.popped ≠ h.popped)) (by decide +kernel)
  obtain ⟨t, hwait, hcarol, hpopped⟩ := exists_run_guarded _ _ h _ hmore
  obtain ⟨-, -, -, -, hfair⟩ := queue_fair hrun
  obtain ⟨served, hserved, honce⟩ := hfair _ t hwait
  refine ⟨h, t, hrun, hwait, hcarol, served, hserved, ?_, honce _⟩
  rintro rfl
  exact hpopped (by rw [hserved, List.append_nil])

end SemQueue

end Loomcycle.Concurrency
