import Loomcycle.Concurrency.SemaphoreActs
import Loomcycle.Lib.Pool

/-! # Runs of the semaphore

The accounts over whole runs: any interleaving of the calls with each other and with the
setters, from a new semaphore. A run in single-replica mode never installs a quota store,
and then no call is at a point only cluster mode has. -/

namespace Loomcycle.Concurrency
open Lib Lib.Transition

variable {w w' : World} {l : Label}

/-- A step of one call, with the other calls beside it. -/
theorem step_act {i : Nat} {a : Action} (h : step w (.act i a) = some w') :
    ∃ p p' rest, w.sem.act p a = some (w'.sem, p') ∧ w.procs[i]? = some p ∧
      w'.procs = w.procs.set i p' ∧ w.procs.Perm (p :: rest) ∧ w'.procs.Perm (p' :: rest) := by
  simp only [step] at h
  split at h
  · cases h
  · next p hp =>
    obtain ⟨⟨s, p'⟩, ha, he⟩ := Option.map_eq_some_iff.mp h
    cases he
    obtain ⟨hi, rfl⟩ := List.getElem?_eq_some_iff.mp hp
    exact ⟨_, p', w.procs.eraseIdx i, ha, hp, rfl, (List.getElem_cons_eraseIdx_perm hi).symm,
      List.set_perm_cons_eraseIdx hi p'⟩

/-- Counters, queues and calls agree, and no waiter is left beside a free slot. -/
structure World.Balanced (w : World) : Prop where
  accounts : Accounts w.sem w.procs
  idle : w.sem.Idle

theorem balanced_init (maxConcurrent maxQueue timeout : Int) :
    (World.init maxConcurrent maxQueue timeout).Balanced where
  accounts :=
    { ok :=
        { pending := .refl _
          history := .refl _
          nodup := List.nodup_nil
          fresh := nofun
          slot := nofun
          cap := nofun
          faults := rfl }
      sound := nofun
      active := rfl
      lent := rfl
      queued := rfl }
  idle _ := rfl

/-- The accounts do not read the caps. -/
theorem Accounts.recap {s s' : Semaphore} {ps : List Proc} (h : Accounts s ps)
    (hs : s' = { s with
      maxConcurrent := s'.maxConcurrent, maxQueue := s'.maxQueue, maxPerUser := s'.maxPerUser
      maxQueuedPerUser := s'.maxQueuedPerUser, quotaStore := s'.quotaStore }) :
    Accounts s' ps := by
  rw [hs]
  exact ⟨h.ok, h.sound, h.active, h.lent, h.queued⟩

/-- What a step of any kind leads to from a balanced state. -/
structure World.Stepped (w : World) (l : Label) (w' : World) : Prop where
  balanced : w'.Balanced
  grows : w.sem.active < w'.sem.active → w'.sem.active ≤ w'.sem.maxConcurrent
  cap : w'.sem.maxConcurrent = w.sem.maxConcurrent ∨
    ∃ m q, l = .setCaps m q ∧ w'.sem.maxConcurrent = m

theorem balanced_act {i : Nat} {a : Action} (hb : w.Balanced)
    (h : step w (.act i a) = some w') :
    ∃ p p' rest, w.procs[i]? = some p ∧ w.procs.Perm (p :: rest) ∧
      w'.procs.Perm (p' :: rest) ∧ w.sem.act p a = some (w'.sem, p') ∧
      Settled w.sem p w'.sem (p' :: rest) := by
  obtain ⟨p, p', rest, ha, hp, -, hperm, hperm'⟩ := step_act h
  exact ⟨p, p', rest, hp, hperm, hperm', ha,
    (acts_act ha).settled (hb.accounts.perm hperm) hb.idle⟩

theorem balanced_step (hb : w.Balanced) (h : step w l = some w') : w.Stepped l w' := by
  have hstay : ∀ {b : Int} {P : Prop}, b < b → P := fun hlt => absurd hlt (Int.lt_irrefl _)
  cases l with
  | call c =>
    cases h
    have hp : (w.procs ++ [Proc.entering c]).Perm (.entering c :: w.procs) :=
      List.perm_append_comm
    have hacc : Accounts w.sem (.entering c :: w.procs) :=
      hb.accounts.recount hb.accounts.ok (List.forall_mem_cons.mpr ⟨trivial, hb.accounts.sound⟩)
        (by simp [Proc.holds]) (by simp [Proc.lends])
        (by simp [Proc.places, waitersOf_cons, Proc.waiter?])
    exact ⟨⟨hacc.perm hp.symm, hb.idle⟩, hstay, .inl rfl⟩
  | act i a =>
    obtain ⟨p, p', rest, -, -, hperm', -, hs⟩ := balanced_act hb h
    have hm : w'.sem.maxConcurrent = w.sem.maxConcurrent := congrArg Prod.fst hs.config
    refine ⟨⟨hs.accounts.perm hperm'.symm, hs.idle⟩, fun hlt => ?_, .inl hm⟩
    rw [hm]
    exact hs.grows hlt
  | setCaps maxConcurrent maxQueue =>
    cases h
    have hacc : Accounts { w.sem with maxConcurrent, maxQueue } w.procs :=
      hb.accounts.recap rfl
    obtain ⟨woken, hh⟩ := Semaphore.wakeNextLocked_hands hacc.ok.nodup_slot
    obtain ⟨hacc', hidle⟩ := hacc.wakeNextLocked
    have hm : (Semaphore.wakeNextLocked { w.sem with maxConcurrent, maxQueue }).maxConcurrent =
        maxConcurrent := by rw [hh.frame]
    refine ⟨⟨hacc', hidle⟩, fun hlt => ?_, .inr ⟨maxConcurrent, maxQueue, rfl, hm⟩⟩
    change (Semaphore.wakeNextLocked _).active ≤ (Semaphore.wakeNextLocked _).maxConcurrent
    rw [hm]
    refine hh.bound ?_
    rintro rfl
    have ha : (Semaphore.wakeNextLocked { w.sem with maxConcurrent, maxQueue }).active =
        w.sem.active + 0 := by rw [hh.frame]; rfl
    change w.sem.active < (Semaphore.wakeNextLocked { w.sem with maxConcurrent, maxQueue }).active
      at hlt
    omega
  | withPerUserCap n order =>
    simp only [step] at h
    split at h
    · cases h
      have hacc : Accounts { w.sem with maxPerUser := n } w.procs :=
        hb.accounts.recap rfl
      obtain ⟨woken, hf⟩ := Semaphore.withPerUserCap_frees hb.accounts.ok.nodup_cap n order
      have hidle : ({ w.sem with maxPerUser := n } : Semaphore).Idle := hb.idle
      have hm : (w.sem.withPerUserCap n order).maxConcurrent = w.sem.maxConcurrent := by
        rw [hf.frame]
      refine ⟨⟨hacc.frees hf, Accounts.frees_idle hidle hf⟩, fun hlt => ?_, .inl hm⟩
      have ha : (w.sem.withPerUserCap n order).active = w.sem.active := by
        rw [hf.frame]
      change w.sem.active < (w.sem.withPerUserCap n order).active at hlt
      omega
    · cases h
  | withQueuedPerUserCap n | withUserQuotaStore qs =>
    cases h
    exact ⟨⟨hb.accounts.recap rfl, hb.idle⟩, hstay, .inl rfl⟩

variable {maxConcurrent maxQueue : Int}

theorem balanced_of_run {P : World → Label → Prop} {timeout : Int}
    (h : Run step P (World.init maxConcurrent maxQueue timeout) w) : w.Balanced :=
  h.invariant (fun _ _ _ hb _ hs => (balanced_step hb hs).balanced) (balanced_init _ _ _)

/-- What a step does to the call at `i`: the call comes, or nothing, or the call acts. -/
theorem proc_step {i : Nat} {p' : Proc} (h : step w l = some w') (hp' : w'.procs[i]? = some p') :
    (∃ c, l = .call c ∧ p' = .entering c) ∨ w.procs[i]? = some p' ∨
      ∃ p a, l = .act i a ∧ w.procs[i]? = some p ∧ w.sem.act p a = some (w'.sem, p') := by
  cases l with
  | call c =>
    cases h
    obtain ⟨-, rfl⟩ | hold := Pool.of_arrive hp'
    · exact .inl ⟨c, rfl, rfl⟩
    · exact .inr (.inl hold)
  | act j a =>
    obtain ⟨p, q, rest, ha, hp, hset, -⟩ := step_act h
    rw [hset] at hp'
    obtain ⟨rfl, rfl⟩ | ⟨-, hold⟩ := Pool.of_move hp'
    · exact .inr (.inr ⟨p, a, rfl, hp, ha⟩)
    · exact .inr (.inl hold)
  | withPerUserCap n order =>
    simp only [step] at h
    split at h <;> cases h
    exact .inr (.inl hp')
  | _ =>
    cases h
    exact .inr (.inl hp')

/-- What a call keeps on its way, every call in progress has. -/
theorem forall_procs_step {I : Proc → Prop} (hnew : ∀ c, l = .call c → I (.entering c))
    (hact : ∀ {a p t p'}, p ∈ w.procs → w.sem.act p a = some (t, p') → I p → I p')
    (hI : ∀ p ∈ w.procs, I p) (h : step w l = some w') : ∀ p ∈ w'.procs, I p := by
  intro p' hmem
  obtain ⟨i, hi⟩ := List.mem_iff_getElem?.mp hmem
  obtain ⟨c, hl, rfl⟩ | hold | ⟨p, a, -, hp, ha⟩ := proc_step h hi
  · exact hnew c hl
  · exact hI p' (List.mem_of_getElem? hold)
  · exact hact (List.mem_of_getElem? hp) ha (hI p (List.mem_of_getElem? hp))

/-! ## Single-replica mode -/

/-- No quota store is installed. -/
def SingleReplica (_ : World) (l : Label) : Prop := l ≠ .withUserQuotaStore true

/-- The call is at a point that single-replica mode has, and gives no count back to a
quota store. -/
def Proc.Local : Proc → Prop
  | .acquireAsk _ _ => False
  | .acquireTake _ qs _ => qs = false
  | .reserveAsk _ _ => False
  | .reserved acct => acct.qs = false
  | .countAsk _ => False
  | .waitTake acct _ => acct.qs = false
  | .admitAsk _ _ => False
  | .admitPoll _ _ => False
  | .polling _ _ _ => False
  | .pollEnd _ _ _ => False
  | .admitGlobal _ acct _ _ => acct.qs = false
  | .waiting _ acct _ _ => acct.qs = false
  | .holding acct _ => acct.qs = false
  | .lent acct => acct.qs = false
  | .reclaiming _ acct => acct.qs = false
  | .endingLent acct => acct.qs = false
  | _ => True

theorem Goes.local {p p' : Proc} (h : Goes false p p') (hl : p.Local) : p'.Local := by
  cases h with
  | acquireAsk hqs | reserveAsk hqs | countAsk hqs | admitAsk hqs => cases hqs
  | _ => trivial

/-- Single-replica mode, everywhere. -/
structure World.Local (w : World) : Prop where
  quotaStore : w.sem.quotaStore = false
  procs : ∀ p ∈ w.procs, p.Local

theorem World.Local.goes (hl : w.Local) {a : Action} {p p' : Proc} {t : Semaphore}
    (ha : w.sem.act p a = some (t, p')) : Goes false p p' :=
  hl.quotaStore ▸ (acts_act ha).goes

theorem local_step (hb : w.Balanced) (hl : w.Local) (hP : SingleReplica w l)
    (h : step w l = some w') : w'.Local := by
  refine ⟨?_, forall_procs_step (fun _ _ => trivial) (fun _ ha => (hl.goes ha).local)
    hl.procs h⟩
  cases l with
  | call c | withQueuedPerUserCap n =>
    cases h
    exact hl.quotaStore
  | act i a =>
    obtain ⟨p, p', rest, -, -, -, -, hs⟩ := balanced_act hb h
    have hq : w'.sem.quotaStore = w.sem.quotaStore :=
      congrArg (fun c => c.2.2.2.2.2) hs.config
    exact hq.trans hl.quotaStore
  | setCaps maxConcurrent maxQueue =>
    cases h
    obtain ⟨woken, hh⟩ := @Semaphore.wakeNextLocked_hands
      { w.sem with maxConcurrent, maxQueue } hb.accounts.ok.nodup_slot
    change (Semaphore.wakeNextLocked _).quotaStore = false
    rw [hh.frame]
    exact hl.quotaStore
  | withPerUserCap n order =>
    simp only [step] at h
    split at h
    · cases h
      obtain ⟨woken, hf⟩ := Semaphore.withPerUserCap_frees hb.accounts.ok.nodup_cap n order
      rw [hf.frame]
      exact hl.quotaStore
    · cases h
  | withUserQuotaStore qs =>
    cases h
    cases qs with
    | false => rfl
    | true => exact absurd rfl hP

theorem local_of_run {timeout : Int}
    (h : Run step SingleReplica (World.init maxConcurrent maxQueue timeout) w) : w.Local := by
  have hboth : w.Balanced ∧ w.Local :=
    h.invariant (I := fun w => w.Balanced ∧ w.Local)
      (fun _ _ _ hb hP hs =>
        ⟨(balanced_step hb.1 hs).balanced, local_step hb.1 hb.2 hP hs⟩)
      ⟨balanced_init _ _ _, rfl, fun _ hp => by cases hp⟩
  exact hboth.2

end Loomcycle.Concurrency
