import Loomcycle.Concurrency.SemaphoreAccounts

/-! # Every step keeps the accounts

One lemma for each way to take a slot or a place, to wait and to stop waiting: from a
state whose counters, queues and calls agree it leads to another, with no waiter left
beside a free slot. The same lemmas say how far the counters can grow, which is what the
caps promise. -/

namespace Loomcycle.Concurrency
open Lib

/-- What only the setters change. -/
def Semaphore.config (s : Semaphore) : Int × Int × Int × Int × Int × Bool :=
  (s.maxConcurrent, s.maxQueue, s.timeout, s.maxPerUser, s.maxQueuedPerUser, s.quotaStore)

/-- The call is not one for work that was already admitted. -/
def Proc.newRun : Proc → Bool
  | .entering .wait => false
  | .entering (.waitForUser _) => false
  | .countAsk _ => false
  | .waitTake _ _ => false
  | _ => true

/-- A step of `p` from `s` leads to `s'` and the calls `ps`. -/
structure Settled (s : Semaphore) (p : Proc) (s' : Semaphore) (ps : List Proc) : Prop where
  accounts : Accounts s' ps
  idle : s'.Idle
  config : s'.config = s.config
  grows : s.active < s'.active → s'.active ≤ s.maxConcurrent
  fills : p.newRun = true →
    s'.queued + s'.lent ≤ s.queued + s.lent ∨ s'.queued + s'.lent ≤ s.maxQueue

/-- It holds nothing and waits for nothing. -/
structure Proc.Bare (p : Proc) : Prop where
  waiter : p.waiter? = none
  holds : p.holds = 0
  lends : p.lends = 0
  places : p.places = 0

variable {s s' : Semaphore} {p p' : Proc} {rest : List Proc}

/-- At most the users' counts differ. -/
structure Agrees (s s' : Semaphore) : Prop where
  waits : s'.waits = s.waits
  config : s'.config = s.config
  active : s'.active = s.active
  lent : s'.lent = s.lent
  queued : s'.queued = s.queued

theorem Agrees.slotWaiters (a : Agrees s s') : s'.slotWaiters = s.slotWaiters :=
  congrArg Waits.slot a.waits

theorem Agrees.maxConcurrent (a : Agrees s s') : s'.maxConcurrent = s.maxConcurrent :=
  congrArg Prod.fst a.config

theorem Agrees.maxQueue (a : Agrees s s') : s'.maxQueue = s.maxQueue :=
  congrArg (fun c => c.2.1) a.config

variable {ps : List Proc} {t : Semaphore} {w : SemWaiter} {r : AdmitRequest} {kind : WaitKind}
  {acct : Account}

theorem Agrees.accounts (a : Agrees s s') (h : Accounts s ps) : Accounts s' ps := by
  have htok : s'.tokens = s.tokens := congrArg Waits.tokens a.waits
  exact h.recount (a.waits ▸ h.ok) h.sound (by rw [a.active, htok]) (by rw [a.lent])
    (by rw [a.queued, htok])

theorem Agrees.idle (a : Agrees s s') (hi : s.Idle) : s'.Idle := by
  intro hact
  rw [a.active, a.maxConcurrent] at hact
  rw [a.slotWaiters, hi hact]

theorem Agrees.settled (a : Agrees s s') (h : Settled s' p t ps) : Settled s p t ps where
  accounts := h.accounts
  idle := h.idle
  config := h.config.trans a.config
  grows := by
    rw [← a.active, ← a.maxConcurrent]
    exact h.grows
  fills := by
    rw [← a.queued, ← a.lent, ← a.maxQueue]
    exact h.fills

/-- The call goes on to its next section. -/
theorem settled_pass (h : Accounts s (p :: rest)) (hi : s.Idle) (hp : p.Bare) (hp' : p'.Bare)
    (hs : p'.Sound) (a : Agrees s s') : Settled s p s' (p' :: rest) where
  accounts := h.move hp.waiter hp'.waiter hs a.waits (by rw [a.active, hp.holds, hp'.holds])
    (by rw [a.lent, hp.lends, hp'.lends]) (by rw [a.queued, hp.places, hp'.places])
  idle := a.idle hi
  config := a.config
  grows hlt := by
    rw [a.active] at hlt
    exact absurd hlt (Int.lt_irrefl _)
  fills _ := .inl (Int.le_of_eq (by rw [a.queued, a.lent]))

/-- No slot is taken and no place. -/
theorem settled_still (h : Accounts s' ps) (hi : s'.Idle) (hc : s'.config = s.config)
    (ha : s'.active = s.active) (hle : s'.queued + s'.lent ≤ s.queued + s.lent) :
    Settled s p s' ps :=
  ⟨h, hi, hc, fun hlt => absurd (ha ▸ hlt) (Int.lt_irrefl _), fun _ => .inl hle⟩

/-- A call takes a free slot, giving up the place it kept. -/
theorem settled_take {slot : Bool} (h : Accounts s (p :: rest)) (hi : s.Idle)
    (hact : s.active < s.maxConcurrent) (hw : p.waiter? = none) (hh : p.holds = 0)
    (hv : s'.waits = s.waits) (hc : s'.config = s.config) (ha : s'.active = s.active + 1)
    (hl : s'.lent + p.lends = s.lent) (hq : s'.queued + p.places = s.queued) :
    Settled s p s' (.holding acct slot :: rest) where
  accounts := h.move hw rfl trivial hv (by rw [ha, hh]; simp [Proc.holds])
    (by rw [hl]; simp [Proc.lends]) (by rw [hq]; simp [Proc.places])
  idle _ := by
    obtain ⟨hslot, -⟩ := Waits.mk.inj hv
    rw [hslot, hi hact]
  config := hc
  grows _ := by omega
  fills _ := .inl (by omega)

theorem slotWaiters_admitted (s : Semaphore) (w : SemWaiter) :
    (s.admitted ++ [w] ++ s.queue.waiters).Perm (w :: s.slotWaiters) := by
  rw [List.append_assoc, List.singleton_append]
  exact List.perm_middle

theorem slotWaiters_push (s : Semaphore) (w : SemWaiter) :
    (s.admitted ++ (s.queue.push w).waiters).Perm (w :: s.slotWaiters) := by
  refine ((s.queue.waiters_push w).append_left s.admitted).trans ?_
  rw [← List.append_assoc]
  exact List.perm_append_comm

/-- A new waiter joins the waiters for a slot. -/
theorem ok_join_slot {ws slot : List SemWaiter} (h : s.waits.Ok ws) (hid : w.id = s.nextId)
    (hw : w.forCap = false) (hp : slot.Perm (w :: s.slotWaiters)) :
    Waits.Ok { s.waits with
      slot, nextId := s.nextId + 1, created := s.created ++ [w] } (w :: ws) := by
  refine h.join hid (hp.append_right _) ?_ h.cap
  intro x hx
  rcases List.mem_cons.mp (hp.mem_iff.mp hx) with rfl | hx
  · exact hw
  · exact h.slot x hx

/-- A call that found no free slot joins the waiters for one. -/
theorem settled_join (h : Accounts s (p :: rest)) (hact : ¬ s.active < s.maxConcurrent)
    (hw : p.waiter? = none) (hw' : p'.waiter? = some w) (hs : p'.Sound) (hh : p.holds = 0)
    (hh' : p'.holds = 0) (hl' : p'.lends = 0) (hp' : p'.places = 0) (hid : w.id = s.nextId)
    (hcap : w.forCap = false) (hp : s'.slotWaiters.Perm (w :: s.slotWaiters))
    (hv : s'.waits = { s.waits with
      slot := s'.slotWaiters, nextId := s.nextId + 1, created := s.created ++ [w] })
    (hc : s'.config = s.config) (ha : s'.active = s.active) (hl : s'.lent + p.lends = s.lent)
    (hq : s'.queued + p.places = s.queued + 1)
    (hfill : p.newRun = true →
      s'.queued + s'.lent ≤ s.queued + s.lent ∨ s'.queued + s'.lent ≤ s.maxQueue) :
    Settled s p s' (p' :: rest) where
  accounts := by
    have hok : s.waits.Ok (waitersOf rest) := h.ok_cons hw
    have htok : s'.tokens = s.tokens := congrArg Waits.tokens hv
    refine h.change ?_ hs (by rw [htok, ha, hh, hh']) (by rw [hl', hl]; simp) ?_
    · rw [hv, waitersOf_cons, hw']
      exact ok_join_slot hok hid hcap hp
    · simp only [htok, hw, hw', hp', Option.toList_none, Option.toList_some, List.length_cons,
        List.length_nil]
      omega
  idle hlt := by
    obtain ⟨hm, -⟩ := Prod.mk.inj hc
    rw [ha, hm] at hlt
    exact absurd hlt hact
  config := hc
  grows hlt := by omega
  fills := hfill

/-! ## Sections that admit or refuse -/

theorem settled_waitSection (acct : Account) (h : Accounts s (p :: rest)) (hi : s.Idle)
    (hp : p.Bare) (hnew : p.newRun = false) :
    Settled s p (s.waitSection acct).1 ((s.waitSection acct).2 :: rest) := by
  unfold Semaphore.waitSection
  split
  · next hact =>
    exact settled_take h hi hact hp.waiter hp.holds rfl rfl rfl (by simp [hp.lends])
      (by simp [hp.places])
  · next hact =>
    exact settled_join h hact hp.waiter rfl rfl hp.holds rfl rfl rfl rfl rfl
      (slotWaiters_admitted s _) rfl rfl rfl (by simp [hp.lends, Semaphore.make])
      (by simp [hp.places]) (fun hn => by simp [hnew] at hn)

theorem settled_refuse (e : AdmitError) (h : Accounts s (p :: rest)) (hi : s.Idle) (hp : p.Bare)
    (a : Agrees s s') : Settled s p (s'.refuse e).1 ((s'.refuse e).2 :: rest) :=
  settled_pass h hi hp ⟨rfl, rfl, rfl, rfl⟩ trivial a

/-- Giving the user's count back, and moving the user's runs on, touches no slot. -/
theorem counters_giveBackUserLocked (h : Accounts s ps) (acct : Account) :
    (s.giveBackUserLocked acct).config = s.config ∧
      (s.giveBackUserLocked acct).active = s.active ∧ (s.giveBackUserLocked acct).lent = s.lent ∧
      (s.giveBackUserLocked acct).queued = s.queued := by
  obtain ⟨woken, hf⟩ := Semaphore.giveBackUserLocked_frees h.ok.nodup_cap acct
  rw [hf.frame]
  exact ⟨rfl, rfl, rfl, rfl⟩

theorem Settled.giveBackUserLocked (h : Settled s p s' ps) (acct : Account) :
    Settled s p (s'.giveBackUserLocked acct) ps := by
  obtain ⟨hc, ha, hl, hq⟩ := counters_giveBackUserLocked h.accounts acct
  obtain ⟨hacc, hidle⟩ := h.accounts.giveBackUserLocked acct
  refine ⟨hacc, hidle h.idle, hc.trans h.config, ?_, ?_⟩
  · rw [ha]
    exact h.grows
  · rw [hl, hq]
    exact h.fills

/-- A run over its user's cap joins the user's FIFO. -/
theorem settled_queueUser {cap : Int} (h : Accounts s (.admitUser r cap :: rest)) (hi : s.Idle)
    (hid : w.id = s.nextId) (hcap : w.forCap = true) (hkey : w.key = r.key)
    (hroom : ¬ s.maxQueue ≤ s.queued + s.lent)
    (hs' : s' = { s.make w with
      userWait := s.userWait.put r.key (s.userWait.get r.key ++ [w])
      queued := s.queued + 1
      tickets := track s.tickets w }) :
    Settled s (.admitUser r cap) s' (.userWaiting r w :: rest) := by
  have huser : r.key.user ≠ "" := h.sound _ List.mem_cons_self
  have hlist : (s.userWait.put r.key (s.userWait.get r.key ++ [w])).values.Perm
      (w :: s.userWait.values) := by
    rw [Multimap.values_put, List.append_assoc, List.singleton_append]
    exact List.perm_middle.trans ((s.userWait.values_perm r.key).symm.cons w)
  have hok : s'.waits.Ok (w :: waitersOf rest) := by
    rw [hs']
    refine Waits.Ok.join (v := s.waits) h.ok hid ?_ h.ok.slot ?_
    · exact (hlist.append_left _).trans List.perm_middle
    · intro k x hx
      rw [Multimap.get_put] at hx
      split at hx
      · next hk =>
        subst hk
        rcases List.mem_append.mp hx with hx | hx
        · exact h.ok.cap _ x hx
        · rw [List.mem_singleton.mp hx]
          exact ⟨hcap, hkey⟩
      · exact h.ok.cap k x hx
  subst hs'
  refine ⟨h.change hok ⟨hcap, hkey, huser⟩ rfl rfl ?_, hi, rfl, ?_, ?_⟩
  · simp [Proc.places, Proc.waiter?, Semaphore.make]
    omega
  · intro hlt
    exact absurd hlt (Int.lt_irrefl _)
  · intro _
    refine .inr ?_
    simp only [Semaphore.make]
    omega

/-! ## Sections that give a slot back -/

/-- The counters after a slot was given back and before it is handed on. -/
structure Loose (s : Semaphore) (p : Proc) (s' : Semaphore) (ps : List Proc) : Prop where
  accounts : Accounts s' ps
  config : s'.config = s.config
  active : s'.active ≤ s.active
  fills : p.newRun = true →
    s'.queued + s'.lent ≤ s.queued + s.lent ∨ s'.queued + s'.lent ≤ s.maxQueue

theorem Loose.giveBackUserLocked (h : Loose s p s' ps) (acct : Account) :
    Loose s p (s'.giveBackUserLocked acct) ps := by
  obtain ⟨hc, ha, hl, hq⟩ := counters_giveBackUserLocked h.accounts acct
  refine ⟨(h.accounts.giveBackUserLocked acct).1, hc.trans h.config, ha ▸ h.active, ?_⟩
  rw [hl, hq]
  exact h.fills

theorem Loose.wakeNextLocked (h : Loose s p s' ps) : Settled s p s'.wakeNextLocked ps := by
  obtain ⟨woken, hh⟩ := Semaphore.wakeNextLocked_hands h.accounts.ok.nodup_slot
  obtain ⟨hacc, hidle⟩ := h.accounts.wakeNextLocked
  have ha : s'.wakeNextLocked.active = s'.active + woken.length := by rw [hh.frame]
  have hl : s'.wakeNextLocked.lent = s'.lent := by rw [hh.frame]
  have hq : s'.wakeNextLocked.queued = s'.queued - woken.length := by rw [hh.frame]
  have hm : s'.maxConcurrent = s.maxConcurrent := congrArg Prod.fst h.config
  refine ⟨hacc, hidle, ?_, ?_, ?_⟩
  · rw [hh.frame]
    exact h.config
  · intro hlt
    rw [← hm]
    refine hh.bound ?_
    rintro rfl
    have := h.active
    simp only [List.length_nil] at ha
    omega
  · intro hn
    have := h.fills hn
    omega

/-! ## Waits that end -/

theorem slotTokens_erase {l : List SemWaiter} (h : w ∈ l) :
    slotTokens l = slotTokens (l.erase w) + if w.forCap then 0 else 1 := by
  have := (List.perm_cons_erase h).countP_eq fun w => !w.forCap
  unfold slotTokens
  cases hw : w.forCap <;> simp [hw] at this ⊢ <;> omega

section

variable (h : Accounts s (p :: rest))
include h

/-- A blocked call received its token. -/
theorem accounts_receive (hw : p.waiter? = some w)
    (hmem : w ∈ s.tokens) (hw' : p'.waiter? = none) (hs : p'.Sound)
    (hactive : s'.active + p.holds + (if w.forCap then 0 else 1) = s.active + p'.holds)
    (hlent : s'.lent + p.lends = s.lent + p'.lends)
    (hqueued : s'.queued + p.places + (if w.forCap then 1 else 0) = s.queued + p'.places)
    (hv : s'.waits = (s.take w).waits) : Accounts s' (p' :: rest) := by
  have hok : s.waits.Ok (w :: waitersOf rest) := h.ok_cons hw
  have htok : s'.tokens = s.tokens.erase w := congrArg Waits.tokens hv
  have he := slotTokens_erase hmem
  refine h.change ?_ hs ?_ hlent ?_
  · rw [hv, waitersOf_cons, hw']
    exact hok.take hmem
  · rw [htok]
    omega
  · rw [htok, hw, hw']
    cases hc : w.forCap <;> simp [hc] at he hqueued ⊢ <;> omega

/-- A blocked call gave up its place in the slot queues. -/
theorem accounts_remove (hw : p.waiter? = some w)
    (hr : s.removeWaiter w = some t) (hw' : p'.waiter? = none) (hs : p'.Sound)
    (hactive : s'.active + p.holds = s.active + p'.holds)
    (hlent : s'.lent + p.lends = s.lent + p'.lends)
    (hqueued : s'.queued + p.places + 1 = s.queued + p'.places) (hv : s'.waits = t.waits) :
    Accounts s' (p' :: rest) := by
  obtain ⟨hf, hp⟩ := Semaphore.removeWaiter_some hr
  have hok : s.waits.Ok (w :: waitersOf rest) := h.ok_cons hw
  have htv : t.waits = { s.waits with
      slot := t.slotWaiters, withdrawn := s.withdrawn ++ [w] } := by
    rw [hf]
    rfl
  have htok : s'.tokens = s.tokens := congrArg Waits.tokens (hv.trans htv)
  refine h.change ?_ hs ?_ hlent ?_
  · rw [hv, htv, waitersOf_cons, hw']
    exact hok.withdraw (hp.append_right _)
      (fun x hx => hp.mem_iff.mpr (List.mem_cons_of_mem w hx)) fun _ _ hx => hx
  · rw [htok]
    omega
  · rw [htok, hw, hw']
    simp
    omega

/-- A waiter for a slot that is in no slot queue was handed its slot. -/
theorem token_of_not_queued (hw : p.waiter? = some w)
    (hcap : w.forCap = false) (hr : s.removeWaiter w = none) : w ∈ s.tokens := by
  have hmem : w ∈ s.waits.pending := by
    refine h.ok.pending.mem_iff.mp ?_
    simp [waitersOf_cons, hw]
  rcases List.mem_append.mp hmem with hm | hm
  · exact absurd hm (Semaphore.removeWaiter_none hr)
  · rcases List.mem_append.mp hm with hm | hm
    · rw [h.ok.forCap_of_mem hm] at hcap
      cases hcap
    · exact hm

/-- A blocked call received the slot it waited for. -/
theorem settled_woken {slot : Bool} (hi : s.Idle)
    (hw : p.waiter? = some w) (hcap : w.forCap = false) (hh : p.holds = 0) (hl : p.lends = 0)
    (hp : p.places = 0) (hmem : w ∈ s.tokens) :
    Settled s p (s.take w) (.holding acct slot :: rest) := by
  refine settled_still (accounts_receive h hw hmem rfl trivial ?_ ?_ ?_ rfl) hi rfl rfl
    (Int.le_refl _)
  · rw [hh]
    simp [hcap, Proc.holds, Semaphore.take]
  · rw [hl]
    rfl
  · rw [hp]
    simp [hcap, Proc.places, Semaphore.take]

end

/-- A cancelled wait for a slot left its queue. -/
theorem accounts_removed {slot : Bool} (e : AdmitError)
    (h : Accounts s (.waiting w acct kind slot :: rest)) (hr : s.removeWaiter w = some t) :
    Accounts { t with queued := t.queued - 1 } (.done (.refused e) :: rest) := by
  obtain ⟨hf, -⟩ := Semaphore.removeWaiter_some hr
  refine accounts_remove h rfl hr rfl trivial ?_ ?_ ?_ rfl
  · rw [hf]
    rfl
  · rw [hf]
    rfl
  · rw [hf]
    simp [Proc.places]

/-- No slot was free, as a waiter was queued for one. -/
theorem settled_removed (hi : s.Idle) (hr : s.removeWaiter w = some t) (h : Accounts s' ps)
    (hc : s'.config = t.config) (ha : s'.active = t.active)
    (hle : s'.queued + s'.lent ≤ t.queued + t.lent) : Settled s p s' ps := by
  obtain ⟨hf, hp⟩ := Semaphore.removeWaiter_some hr
  rw [hf] at hc ha hle
  refine settled_still h (fun hact => ?_) hc ha hle
  have hm : s'.maxConcurrent = s.maxConcurrent := congrArg Prod.fst hc
  rw [ha, hm] at hact
  rw [hi hact] at hp
  cases hp.nil_eq

/-- A cancelled wait took the slot it was handed, to give it back. -/
theorem accounts_unwanted {slot : Bool} (e : AdmitError)
    (h : Accounts s (.waiting w acct kind slot :: rest)) (hmem : w ∈ s.tokens) :
    Accounts ({ s with active := s.active - 1 }.take w) (.done (.refused e) :: rest) := by
  have hcap : w.forCap = false := h.sound _ List.mem_cons_self
  refine accounts_receive h rfl hmem rfl trivial ?_ rfl ?_ rfl
  · simp [hcap, Proc.holds, Semaphore.take]
  · simp [hcap, Proc.places, Semaphore.take]

/-- A cancelled wait on the user's cap took the count and the place it was handed. -/
theorem accounts_unwantedCount (e : AdmitError) (h : Accounts s (.userWaiting r w :: rest))
    (hmem : w ∈ s.tokens) :
    Accounts { s.take w with queued := s.queued - 1 } (.done (.refused e) :: rest) := by
  obtain ⟨hcap, -, -⟩ := h.sound _ List.mem_cons_self
  refine accounts_receive h rfl hmem rfl trivial ?_ rfl ?_ rfl
  · simp [hcap, Proc.holds, Semaphore.take]
  · simp [hcap, Proc.places]

theorem decrementPerUser_eq (key : UserKey) :
    s.decrementPerUser key = s.giveBackUserLocked ⟨key, false, .capped⟩ := by
  unfold Semaphore.giveBackUserLocked
  split
  · next hk =>
    have hk : key.user = "" := hk
    simp [Semaphore.decrementPerUser, hk]
  · rfl

/-- A waiter that is not in its user's FIFO was handed its count. -/
theorem token_of_not_waiting (h : Accounts s (.userWaiting r w :: rest))
    (hw : w ∉ s.userWait.get r.key) : w ∈ s.tokens := by
  obtain ⟨hcap, hkey, -⟩ := h.sound _ List.mem_cons_self
  have hpend : w ∈ s.waits.pending :=
    h.ok.pending.mem_iff.mp (by simp [waitersOf_cons, Proc.waiter?])
  rcases List.mem_append.mp hpend with hm | hm
  · rw [h.ok.slot w hm] at hcap
    cases hcap
  · rcases List.mem_append.mp hm with hm | hm
    · obtain ⟨k, hk⟩ := Multimap.mem_values.mp hm
      rw [← (h.ok.cap k w hk).2, hkey] at hk
      exact absurd hk hw
    · exact hm

end Loomcycle.Concurrency
