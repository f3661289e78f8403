import Loomcycle.Concurrency.SemaphoreRuns

/-! # Waiting on a user's cap

A run waits on its user's cap only while the user is at the cap in force: whoever gives a
count back moves the user's waiting runs on, and so does a reload of the cap. `Admit` reads
the cap in one section and queues in another. A reload in between moves on the runs that
wait already and not the one about to queue, so the statement needs the cap in force not to
have been raised or removed since it was read. -/

namespace Loomcycle.Concurrency
open Lib Lib.Transition

/-- Nobody waits on the cap of the user `k`, or the user is at the cap in force. -/
def Semaphore.AtCap (s : Semaphore) (k : UserKey) : Prop :=
  s.userWait.get k = [] ∨ 0 < s.maxPerUser ∧ s.maxPerUser ≤ count s.perUser k

variable {s t : Semaphore} {p p' : Proc} {rest : List Proc} {w w' : World} {l : Label}
  {k : UserKey}

theorem named_step (hn : ∀ p ∈ w.procs, p.Named) (h : step w l = some w') :
    ∀ p ∈ w'.procs, p.Named :=
  forall_procs_step (fun _ _ => trivial) (fun _ ha => (acts_act ha).goes.named) hn h

variable {m : UserKey → Option Int} {key : UserKey}

theorem count_le_increment (m : UserKey → Option Int) (key k : UserKey) :
    count m k ≤ count (increment m key) k := by
  by_cases hk : k = key
  · subst hk
    simp only [count, increment, Function.update_self, Option.getD_some]
    omega
  · simp [count, increment, hk]

/-- Nobody waits on the cap of the user `k`, or the user has `b` counts. -/
def Semaphore.Fills (b : Int) (s : Semaphore) (k : UserKey) : Prop :=
  s.userWait.get k = [] ∨ 0 < b ∧ b ≤ count s.perUser k

variable {b : Int}

/-- The users' counts only grow, and nobody starts to wait. -/
theorem Semaphore.Fills.mono (h : s.Fills b k)
    (hwait : s.userWait.get k = [] → t.userWait.get k = [])
    (hcount : count s.perUser k ≤ count t.perUser k) : t.Fills b k := by
  rcases h with h | h
  · exact .inl (hwait h)
  · exact .inr (by omega)

theorem SameUsers.fills (h : SameUsers s t) (hs : s.Fills b k) : t.Fills b k :=
  hs.mono (by rw [h.userWait]; exact id) (Int.le_of_eq (by rw [h.perUser]))

/-- Once a user's runs were moved on, it is at its cap or none of them waits. -/
theorem Semaphore.WakesUser.fills {woken : List SemWaiter} (h : s.WakesUser key t woken)
    (hcap : 0 < s.maxPerUser → 0 < b ∧ b ≤ s.maxPerUser) (hs : k ≠ key → s.Fills b k) :
    t.Fills b k := by
  by_cases hk : k = key
  · subst hk
    rcases h.stops with hnil | ⟨hpos, hfull⟩
    · exact .inl hnil
    · have := hcap hpos
      exact .inr (by omega)
  · refine (hs hk).mono (by rw [h.others k hk]; exact id) ?_
    have hp : t.perUser k = s.perUser k := by rw [h.perUser, if_neg (by simp [hk])]
    simp [count, hp]

theorem fills_decrementPerUser (huser : key.user ≠ "") (hn : (s.userWaiters ++ s.tokens).Nodup)
    (hcap : 0 < s.maxPerUser → 0 < b ∧ b ≤ s.maxPerUser) (hs : s.Fills b k) :
    (s.decrementPerUser key).Fills b k := by
  rcases Semaphore.decrementPerUser_wakes hn huser with ⟨-, he⟩ | ⟨-, woken, hw⟩
  · rw [he]
    exact hs
  · exact hw.fills hcap fun hk => hs.mono id (Int.le_of_eq (by simp [count, decrement, hk]))

/-- A reload moves the runs of every user on. -/
theorem fills_wakeAll {order : List UserKey} (hn : (s.userWaiters ++ s.tokens).Nodup)
    (hcap : 0 < s.maxPerUser → 0 < b ∧ b ≤ s.maxPerUser) (hs : k ∉ order → s.Fills b k) :
    (order.foldl Semaphore.wakeUserWaiter s).Fills b k := by
  induction order generalizing s with
  | nil => exact hs List.not_mem_nil
  | cons key order ih =>
    obtain ⟨woken, hw⟩ := Semaphore.wakeUserWaiter_wakes hn key
    have hmax : (s.wakeUserWaiter key).maxPerUser = s.maxPerUser := by rw [hw.frame]
    refine ih (hw.toFrees.nodup hn) (hmax ▸ hcap) fun hk => hw.fills hcap fun hne => hs ?_
    simp [hk, hne]

/-- The cap the call read, at the step that may queue it. -/
def World.capRead (w : World) : Label → Option Int
  | .act i .proceed =>
    match w.procs[i]? with
    | some (.admitUser _ cap) => some cap
    | _ => none
  | _ => none

/-- The cap in force is positive and no higher than the one the run read. -/
def CapNotRaised (w : World) (l : Label) : Prop :=
  ∀ cap ∈ w.capRead l, 0 < w.sem.maxPerUser ∧ w.sem.maxPerUser ≤ cap

instance (w : World) (l : Label) : Decidable (CapNotRaised w l) :=
  inferInstanceAs (Decidable (∀ cap ∈ w.capRead l, _))

theorem fills_of_userStep (h : UserStep s p t p')
    (hcap : 0 < s.maxPerUser → 0 < b ∧ b ≤ s.maxPerUser)
    (hread : ∀ r cap, p = .admitUser r cap → 0 < b ∧ b ≤ cap) (hs : s.Fills b k) :
    t.Fills b k := by
  cases h with
  | same perUser userWait =>
    exact hs.mono (by rw [userWait]; exact id) (Int.le_of_eq (by rw [perUser]))
  | counts key cap captured room perUser userWait | resumes key perUser userWait =>
    refine hs.mono (by rw [userWait]; exact id) ?_
    rw [perUser]
    exact count_le_increment _ _ _
  | gives key s₀ user perUser userWait made cap nodup after =>
    have hs₀ : s₀.Fills b k :=
      hs.mono (by rw [userWait]; exact id) (Int.le_of_eq (by rw [perUser]))
    exact after.fills (fills_decrementPerUser user nodup (cap ▸ hcap) hs₀)
  | queues r cap x source target full perUser userWait =>
    by_cases hk : k = r.key
    · subst hk
      have := hread r cap source
      exact .inr (by rw [perUser]; omega)
    · refine hs.mono ?_ (Int.le_of_eq (by rw [perUser]))
      rw [userWait, Multimap.get_put, if_neg hk]
      exact id
  | withdraws r x source target perUser userWait =>
    refine hs.mono ?_ (Int.le_of_eq (by rw [perUser]))
    rw [userWait, Multimap.get_put]
    split
    · next hk =>
      intro hnil
      rw [← hk, hnil]
      rfl
    · exact id

theorem sameUsers_setCaps (maxConcurrent maxQueue : Int) (hb : w.Balanced) :
    SameUsers w.sem (w.sem.setCaps maxConcurrent maxQueue) := by
  have hacc : Accounts { w.sem with maxConcurrent, maxQueue } w.procs := hb.accounts.recap rfl
  have hu := sameUsers_wakeNextLocked hacc
  exact ⟨hu.perUser, hu.userWait, hu.handed, hu.made, hu.cap⟩

/-- Only a reload changes the cap, and it moves the waiting runs of every user on. -/
theorem fills_step (hb : w.Balanced) (hnamed : ∀ p ∈ w.procs, p.Named)
    (hcap : 0 < w'.sem.maxPerUser → 0 < b ∧ b ≤ w'.sem.maxPerUser)
    (hread : w'.sem.maxPerUser = w.sem.maxPerUser → ∀ cap ∈ w.capRead l, 0 < b ∧ b ≤ cap)
    (hs : w'.sem.maxPerUser = w.sem.maxPerUser → w.sem.Fills b k) (h : step w l = some w') :
    w'.sem.Fills b k := by
  cases l with
  | call c | withQueuedPerUserCap n | withUserQuotaStore qs =>
    cases h
    exact hs rfl
  | act i a =>
    obtain ⟨p, p', rest, hp, hperm, -, ha, hsettled⟩ := balanced_act hb h
    have hmax : w'.sem.maxPerUser = w.sem.maxPerUser :=
      congrArg (fun c => c.2.2.2.1) hsettled.config
    have hu := (acts_act ha).users (hb.accounts.perm hperm) (hnamed p (List.mem_of_getElem? hp))
    refine fills_of_userStep hu (hmax ▸ hcap) (fun r cap hp' => ?_) (hs hmax)
    subst hp'
    cases a with
    | proceed => exact hread hmax cap (by simp [World.capRead, hp])
    | quota q => cases q <;> cases ha
    | _ => cases ha
  | setCaps maxConcurrent maxQueue =>
    cases h
    have hu := sameUsers_setCaps maxConcurrent maxQueue hb
    exact hu.fills (hs hu.cap)
  | withPerUserCap n order =>
    simp only [step] at h
    split at h
    · next hperm =>
      cases h
      obtain ⟨woken, hf⟩ := Semaphore.withPerUserCap_frees hb.accounts.ok.nodup_cap n order
      have hmax : (w.sem.withPerUserCap n order).maxPerUser = n := by
        rw [hf.frame]
      refine fills_wakeAll hb.accounts.ok.nodup_cap (hmax ▸ hcap) fun hk => .inl ?_
      refine Classical.byContradiction fun hne => hk ?_
      exact hperm.mem_iff.mpr (Multimap.mem_keys_of_get hne)
    · cases h

/-- Every user with a waiting run is at the cap. -/
structure World.Capped (w : World) : Prop where
  balanced : w.Balanced
  named : ∀ p ∈ w.procs, p.Named
  atCap : ∀ k, w.sem.AtCap k

theorem capped_step (hc : w.Capped) (hP : CapNotRaised w l) (h : step w l = some w') :
    w'.Capped := by
  refine ⟨(balanced_step hc.balanced h).balanced, named_step hc.named h, fun k => ?_⟩
  exact fills_step hc.balanced hc.named (fun hpos => ⟨hpos, Int.le_refl _⟩)
    (fun hmax cap hread => hmax ▸ hP cap hread) (fun hmax => hmax ▸ hc.atCap k) h

/-- Along any run in which no `Admit` queues under a cap that was raised or removed since
it read it, in every state a user with a waiting run is at the cap in force. -/
theorem at_cap_of_run {maxConcurrent maxQueue timeout : Int}
    (h : Run step CapNotRaised (World.init maxConcurrent maxQueue timeout) w) (k : UserKey)
    (hwait : w.sem.userWait.get k ≠ []) :
    0 < w.sem.maxPerUser ∧ w.sem.maxPerUser ≤ count w.sem.perUser k := by
  have hc : w.Capped :=
    h.invariant (fun _ _ _ hc hP hs => capped_step hc hP hs)
      ⟨balanced_init _ _ _, (fun _ hp => by cases hp), fun _ => .inl rfl⟩
  exact (hc.atCap k).resolve_left hwait

/-- Alice's second run has read a cap of one, which her first run fills. -/
def capReadTrace : List Label :=
  [.withPerUserCap 1 [], .withQueuedPerUserCap 1,
    .call (.admitRun { userID := "alice" }), .act 0 .proceed, .act 0 .proceed, .act 0 .proceed,
    .call (.admitRun { userID := "alice" }), .act 1 .proceed]

/-- It queues, and waits at the cap. -/
theorem at_cap_of_second_run :
    ∃ w, Run step CapNotRaised (World.init 2 2 0) w ∧
      w.sem.userWait.get ⟨"", "alice"⟩ ≠ [] ∧ 0 < w.sem.maxPerUser ∧
      w.sem.maxPerUser ≤ count w.sem.perUser ⟨"", "alice"⟩ := by
  obtain ⟨w, hrun, hwait⟩ := exists_run_guarded step CapNotRaised (World.init 2 2 0)
    (capReadTrace ++ [.act 1 .proceed])
    (p := fun w => w.sem.userWait.get ⟨"", "alice"⟩ ≠ []) (by decide +kernel)
  exact ⟨w, hrun, hwait, at_cap_of_run hrun _ hwait⟩

/-- A reload raises the cap to two before it queues: it waits on the cap of one, and its
user has one run. -/
theorem waits_under_raised_cap :
    ∃ w, Run step SingleReplica (World.init 2 2 0) w ∧
      w.sem.userWait.get ⟨"", "alice"⟩ ≠ [] ∧
      ¬ (0 < w.sem.maxPerUser ∧ w.sem.maxPerUser ≤ count w.sem.perUser ⟨"", "alice"⟩) := by
  have hlabels : ∀ a ∈ capReadTrace ++ [Label.withPerUserCap 2 [], .act 1 .proceed],
      ∀ u, SingleReplica u a := by
    simp [capReadTrace, SingleReplica]
  exact exists_run_of_exec step _ _ hlabels (by decide +kernel)

/-! ## Somebody is counted -/

/-- A cap that counts nobody is never read. -/
def Proc.ReadsCap (p : Proc) : Prop := ∀ r cap, p = .admitUser r cap → 0 < cap

theorem Goes.readsCap {qs : Bool} (h : Goes qs p p') : p'.ReadsCap := by
  rintro r cap rfl
  cases h
  assumption

/-- Whatever cap a run waits on, it waits while a run of its user is counted. -/
structure World.Manned (w : World) : Prop where
  reads : ∀ p ∈ w.procs, p.ReadsCap
  counts : ∀ k, w.sem.Fills 1 k

theorem manned_step (hb : w.Balanced) (hn : ∀ p ∈ w.procs, p.Named) (hm : w.Manned)
    (h : step w l = some w') : w'.Manned where
  reads := forall_procs_step (fun _ _ _ _ he => by cases he) (fun _ ha _ => (acts_act ha).goes.readsCap)
    hm.reads h
  counts k := by
    refine fills_step hb hn (fun hpos => ⟨Int.one_pos, hpos⟩) (fun _ cap hread => ?_)
      (fun _ => hm.counts k) h
    unfold World.capRead at hread
    split at hread
    · split at hread
      · next r cap' hp =>
        cases hread
        exact ⟨Int.one_pos, hm.reads _ (List.mem_of_getElem? hp) _ _ rfl⟩
      · cases hread
    · cases hread

end Loomcycle.Concurrency
