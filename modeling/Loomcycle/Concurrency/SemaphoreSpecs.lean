import Loomcycle.Concurrency.SemaphoreFlow

/-! # What waking does

One specification for each loop of the semaphore. `Hands` is a run of `wakeNextLocked`:
free slots go to waiters, each with a token. `Frees` is any number of runs of
`wakeUserWaiter`: runs waiting on a user's cap move on, and keep their place. Both say
everything else is as it was, so later proofs never look into the loops. -/

namespace Loomcycle.Concurrency
open Lib Lib.RoundRobin

namespace SemQueue

variable {q q' : SemQueue} {w : SemWaiter}

theorem waiters_push (q : SemQueue) (w : SemWaiter) :
    (q.push w).waiters.Perm (q.waiters ++ [w]) :=
  q.2.waiters_push w

theorem waiters_of_pop (h : q.pop = some (w, q')) : q.waiters.Perm (w :: q'.waiters) := by
  unfold pop at h
  split at h
  · cases h
  · next x r hp =>
    cases h
    obtain ⟨k, l, t⟩ := Rotation.pop_took hp
    exact t.waiters q.2

theorem pop_eq_none : q.pop = none ↔ q.waiters = [] := by
  rw [waiters, ← q.2.pop_eq_none]
  unfold pop
  split
  · next h => simp [h]
  · next h => simp [h]

theorem waiters_of_remove (h : q.remove w = some q') : q.waiters.Perm (w :: q'.waiters) := by
  unfold remove at h
  split at h
  · cases h
  · next r hr =>
    cases h
    obtain ⟨l, t⟩ := q.2.remove_took hr
    exact t.waiters q.2

theorem remove_eq_none : q.remove w = none ↔ w ∉ q.waiters := by
  rw [waiters, ← q.2.remove_eq_none]
  unfold remove
  split
  · next h => simp [h]
  · next h => simp [h]

end SemQueue

namespace Semaphore

variable {s s' s'' : Semaphore}

/-- The waiters for a slot, in the order `nextWaiter` prefers. -/
def slotWaiters (s : Semaphore) : List SemWaiter := s.admitted ++ s.queue.waiters

/-- Free slots were handed to `woken`, in this order. -/
structure Hands (s s' : Semaphore) (woken : List SemWaiter) : Prop where
  frame : s' = { s with
    admitted := s'.admitted
    queue := s'.queue
    tickets := s'.tickets
    queued := s.queued - woken.length
    active := s.active + woken.length
    tokens := s.tokens ++ woken }
  perm : s.slotWaiters.Perm (woken ++ s'.slotWaiters)
  bound : woken ≠ [] → s'.active ≤ s.maxConcurrent

theorem Hands.refl (s : Semaphore) : Hands s s [] :=
  ⟨by simp, .refl _, fun h => absurd rfl h⟩

variable {w : SemWaiter} {woken l q : List SemWaiter} {key : UserKey}

theorem nextWaiter_some (h : s.nextWaiter = some (w, s')) :
    s' = { s with admitted := s'.admitted, queue := s'.queue, tickets := s'.tickets } ∧
      s.slotWaiters.Perm (w :: s'.slotWaiters) := by
  unfold nextWaiter at h
  split at h
  · next x rest ha =>
    cases h
    exact ⟨rfl, by rw [slotWaiters, ha]; exact .refl _⟩
  next ha =>
  split at h
  · cases h
  · obtain ⟨⟨x, q⟩, hp, he⟩ := Option.map_eq_some_iff.mp h
    cases he
    refine ⟨rfl, ?_⟩
    simpa [slotWaiters, ha] using SemQueue.waiters_of_pop hp

theorem nextWaiter_none (h : s.nextWaiter = none) : s.slotWaiters = [] := by
  unfold nextWaiter at h
  split at h
  · cases h
  next ha =>
  split at h
  · next hn =>
    rw [s.queue.2.count, List.length_eq_zero_iff] at hn
    simp [slotWaiters, SemQueue.waiters, ha, hn]
  · have hq := SemQueue.pop_eq_none.mp (Option.map_eq_none_iff.mp h)
    simp [slotWaiters, ha, hq]

/-- The waiters handed on were none of those with a token, and the tokens stay distinct. -/
theorem nodup_handed {xs ys t : List SemWaiter} (hp : xs.Perm (l ++ ys))
    (hn : (xs ++ t).Nodup) : (∀ w ∈ l, w ∉ t) ∧ (ys ++ (t ++ l)).Nodup := by
  have hmoved : (ys ++ (t ++ l)).Nodup := by
    refine List.Perm.nodup ((hp.append_right t).trans ?_) hn
    rw [← List.append_assoc ys, List.append_assoc l]
    exact List.perm_append_comm
  have hsplit := List.nodup_append.mp (List.nodup_append.mp hmoved).2.1
  exact ⟨fun w hl ht => hsplit.2.2 w ht w hl rfl, hmoved⟩

theorem offer_of_not_mem (h : w ∉ s.tokens) :
    s.offer w = { s with tokens := s.tokens ++ [w] } := if_neg h

/-- One round of the loop, then the others. -/
theorem Hands.cons (hn : s.nextWaiter = some (w, s')) (ht : w ∉ s.tokens)
    (hact : s.active < s.maxConcurrent)
    (h : Hands ({ s' with queued := s'.queued - 1, active := s'.active + 1 }.offer w) s'' woken) :
    Hands s s'' (w :: woken) := by
  obtain ⟨hf, hp⟩ := nextWaiter_some hn
  have htok : s'.tokens = s.tokens := by rw [hf]
  rw [offer_of_not_mem (by simpa [htok] using ht)] at h
  refine ⟨?_, hp.trans (h.perm.cons w), fun _ => ?_⟩
  · rw [h.frame, hf]
    simp only [Semaphore.mk.injEq, List.length_cons, true_and, and_true,
      List.append_assoc, List.singleton_append]
    omega
  · by_cases hw : woken = []
    · have := congrArg Semaphore.active h.frame
      rw [hw, hf, List.length_nil] at this
      simp only at this
      omega
    · have hb := h.bound hw
      rw [hf] at hb
      exact hb

theorem wakeNextLoop_hands (fuel : Nat) (hn : (s.slotWaiters ++ s.tokens).Nodup) :
    ∃ woken, Hands s (wakeNextLoop fuel s) woken := by
  induction fuel generalizing s with
  | zero => exact ⟨[], .refl s⟩
  | succ fuel ih =>
    unfold wakeNextLoop
    split
    · next hact =>
      split
      · exact ⟨[], .refl s⟩
      next w s' hnext =>
      obtain ⟨hf, hp⟩ := nextWaiter_some hnext
      have htok : s'.tokens = s.tokens := by rw [hf]
      -- the served waiter moves from the queues to the tokens
      obtain ⟨hnew, hmoved⟩ := nodup_handed (l := [w]) hp (htok ▸ hn)
      have ht := hnew w (List.mem_singleton_self w)
      obtain ⟨woken, hw⟩ := @ih
        ({ s' with queued := s'.queued - 1, active := s'.active + 1 }.offer w)
        (by rw [offer_of_not_mem (by exact ht)]; exact hmoved)
      exact ⟨w :: woken, hw.cons hnext (htok ▸ ht) hact⟩
    · exact ⟨[], .refl s⟩

/-- The fuel is enough: the loop ends because the slots or the waiters ran out. -/
theorem wakeNextLoop_idle {fuel : Nat} (hfuel : s.slotWaiters.length ≤ fuel)
    (hact : (wakeNextLoop fuel s).active < (wakeNextLoop fuel s).maxConcurrent) :
    (wakeNextLoop fuel s).slotWaiters = [] := by
  induction fuel generalizing s with
  | zero => exact List.length_eq_zero_iff.mp (Nat.le_zero.mp hfuel)
  | succ fuel ih =>
    unfold wakeNextLoop at hact ⊢
    split at hact
    · next hs =>
      simp only [hs, if_true]
      cases hnext : s.nextWaiter with
      | none => exact nextWaiter_none hnext
      | some r =>
        obtain ⟨w, s'⟩ := r
        simp only [hnext] at hact ⊢
        refine ih ?_ hact
        have hlen := (nextWaiter_some hnext).2.length_eq
        rw [List.length_cons] at hlen
        have hoff : ∀ t : Semaphore, (t.offer w).slotWaiters = t.slotWaiters := by
          intro t
          unfold offer
          split <;> rfl
        rw [hoff]
        change s'.slotWaiters.length ≤ fuel
        omega
    · next hs =>
      exact absurd hact hs

theorem wakeNextLocked_hands (hn : (s.slotWaiters ++ s.tokens).Nodup) :
    ∃ woken, Hands s s.wakeNextLocked woken :=
  wakeNextLoop_hands _ hn

theorem removeWaiter_some (h : s.removeWaiter w = some s') :
    s' = { s with
      admitted := s'.admitted
      queue := s'.queue
      tickets := s'.tickets
      withdrawn := s.withdrawn ++ [w] } ∧ s.slotWaiters.Perm (w :: s'.slotWaiters) := by
  unfold removeWaiter at h
  split at h
  · next hw =>
    cases h
    exact ⟨rfl, (List.perm_cons_erase hw).append_right s.queue.waiters⟩
  · obtain ⟨q, hq, he⟩ := Option.map_eq_some_iff.mp h
    cases he
    refine ⟨rfl, ?_⟩
    exact ((SemQueue.waiters_of_remove hq).append_left s.admitted).trans List.perm_middle

theorem removeWaiter_none (h : s.removeWaiter w = none) : w ∉ s.slotWaiters := by
  unfold removeWaiter at h
  split at h
  · cases h
  · next hw =>
    have hq := SemQueue.remove_eq_none.mp (Option.map_eq_none_iff.mp h)
    simp [slotWaiters, hw, hq]

/-! ## Runs waiting on their user's cap -/

/-- Runs waiting on a user's cap moved on, after some change to the users' counts. -/
structure Frees (s s' : Semaphore) (woken : List SemWaiter) : Prop where
  frame : s' = { s with
    userWait := s'.userWait
    perUser := s'.perUser
    tickets := s'.tickets
    released := s'.released
    tokens := s.tokens ++ woken }
  perm : s.userWaiters.Perm (woken ++ s'.userWaiters)
  kept : ∀ k, ∀ w ∈ s'.userWait.get k, w ∈ s.userWait.get k

theorem Frees.refl (s : Semaphore) : Frees s s [] :=
  ⟨by simp, .refl _, fun _ _ h => h⟩

theorem Frees.trans {l' : List SemWaiter} (h : Frees s s' l) (h' : Frees s' s'' l') :
    Frees s s'' (l ++ l') := by
  refine ⟨?_, ?_, fun k w hw => h.kept k w (h'.kept k w hw)⟩
  · rw [h'.frame, h.frame]
    simp only [List.append_assoc]
  · rw [List.append_assoc]
    exact h.perm.trans (h'.perm.append_left l)

/-- The user's oldest waiting runs moved on, as far as its cap allows. -/
structure WakesUser (key : UserKey) (s s' : Semaphore) (woken : List SemWaiter) : Prop
    extends Frees s s' woken where
  list : s.userWait.get key = woken ++ s'.userWait.get key
  others : ∀ k, k ≠ key → s'.userWait.get k = s.userWait.get k
  perUser : ∀ k, s'.perUser k =
    if k = key ∧ woken ≠ [] then some (count s.perUser key + woken.length) else s.perUser k
  stops : s'.userWait.get key = [] ∨ 0 < s.maxPerUser ∧ s.maxPerUser ≤ count s'.perUser key
  bound : woken ≠ [] → 0 < s.maxPerUser → count s'.perUser key ≤ s.maxPerUser

theorem WakesUser.stay
    (h : s.userWait.get key = [] ∨ 0 < s.maxPerUser ∧ s.maxPerUser ≤ count s.perUser key) :
    WakesUser key s s [] :=
  { Frees.refl s with
    list := rfl
    others := fun _ _ => rfl
    perUser := fun _ => by simp
    stops := h
    bound := fun hw => absurd rfl hw }

/-- The state after one round of `wakeUserWaiter`. -/
def moveOn (s : Semaphore) (key : UserKey) (w : SemWaiter) (q : List SemWaiter) : Semaphore :=
  { s with
    userWait := s.userWait.put key q
    perUser := increment s.perUser key
    tickets := untrack s.tickets w
    tokens := s.tokens ++ [w] }

theorem userWaiters_moveOn (hq : s.userWait.get key = w :: q) :
    s.userWaiters.Perm (w :: (s.moveOn key w q).userWaiters) := by
  have h := s.userWait.values_perm key
  rw [hq] at h
  simpa [userWaiters, moveOn, Multimap.values_put] using h

theorem WakesUser.cons (hq : s.userWait.get key = w :: q)
    (hc : ¬ (0 < s.maxPerUser ∧ s.maxPerUser ≤ count s.perUser key))
    (h : WakesUser key (s.moveOn key w q) s' woken) : WakesUser key s s' (w :: woken) := by
  have hget : ∀ k, (s.moveOn key w q).userWait.get k = if k = key then q else s.userWait.get k :=
    fun k => s.userWait.get_put key k q
  have hlist : q = woken ++ s'.userWait.get key := by simpa [hget] using h.list
  have hcount : count (s.moveOn key w q).perUser key = count s.perUser key + 1 := by
    simp [moveOn, increment, count]
  refine ⟨⟨?_, ?_, ?_⟩, ?_, ?_, ?_, h.stops, ?_⟩
  · rw [h.frame]
    simp [moveOn]
  · exact (userWaiters_moveOn hq).trans (h.perm.cons w)
  · intro k x hx
    have hm := h.kept k x hx
    rw [hget] at hm
    split at hm
    · next hk => rw [hk, hq]; exact List.mem_cons_of_mem w hm
    · exact hm
  · rw [hq, hlist]; rfl
  · intro k hk
    rw [h.others k hk, hget, if_neg hk]
  · intro k
    rw [h.perUser k, hcount]
    by_cases hk : k = key
    · subst hk
      by_cases hw : woken = []
      · simp [hw, moveOn, increment]
      · simp only [hw, ne_eq, not_false_eq_true, and_self, if_true, List.length_cons,
          reduceCtorEq]
        congr 1
        omega
    · simp [hk, moveOn, increment]
  · intro _ hpos
    by_cases hw : woken = []
    · have hk := h.perUser key
      have : count s'.perUser key = count s.perUser key + 1 := by
        rw [← hcount, count, hk, if_neg (by simp [hw])]
        rfl
      omega
    · exact h.bound hw hpos

variable (hn : (s.userWaiters ++ s.tokens).Nodup)
include hn

theorem wakeUserLoop_wakes (hq : s.userWait.get key = q) :
    ∃ woken, WakesUser key s (wakeUserLoop key q s) woken := by
  induction q generalizing s with
  | nil => exact ⟨[], .stay (.inl hq)⟩
  | cons w q ih =>
    unfold wakeUserLoop
    split
    · next hc => exact ⟨[], .stay (.inr hc)⟩
    next hc =>
    obtain ⟨hnew, hmoved⟩ := nodup_handed (l := [w]) (userWaiters_moveOn hq) hn
    have hsend : ({ s with
        userWait := s.userWait.put key q
        perUser := increment s.perUser key
        tickets := untrack s.tickets w }.send w) = s.moveOn key w q :=
      if_neg (hnew w (List.mem_singleton_self w))
    rw [hsend]
    obtain ⟨woken, hw⟩ := @ih (s.moveOn key w q) hmoved (by simp [moveOn])
    exact ⟨w :: woken, hw.cons hq hc⟩

theorem wakeUserWaiter_wakes (key : UserKey) :
    ∃ woken, WakesUser key s (s.wakeUserWaiter key) woken :=
  wakeUserLoop_wakes hn rfl

/-- Before the map of counts is made there is nothing to give back. -/
theorem decrementPerUser_wakes (huser : key.user ≠ "") :
    s.perUserMade = false ∧ s.decrementPerUser key = s ∨
      s.perUserMade = true ∧ ∃ woken, WakesUser key { s with perUser := decrement s.perUser key }
        (s.decrementPerUser key) woken := by
  rcases Bool.eq_false_or_eq_true s.perUserMade with hm | hm
  · have he : s.decrementPerUser key =
        { s with perUser := decrement s.perUser key }.wakeUserWaiter key :=
      if_neg (by simp [huser, hm])
    rw [he]
    exact .inr ⟨hm, @wakeUserWaiter_wakes { s with perUser := decrement s.perUser key } hn key⟩
  · exact .inl ⟨hm, if_pos (.inr hm)⟩

theorem decrementPerUser_frees (key : UserKey) :
    ∃ woken, Frees s (s.decrementPerUser key) woken := by
  by_cases huser : key.user = ""
  · exact ⟨[], by rw [decrementPerUser, if_pos (.inl huser)]; exact .refl s⟩
  · rcases decrementPerUser_wakes hn huser with ⟨-, he⟩ | ⟨-, woken, h⟩
    · exact ⟨[], by rw [he]; exact .refl s⟩
    · exact ⟨woken, h.frame, h.perm, h.kept⟩

theorem giveBackUserLocked_frees (acct : Account) :
    ∃ woken, Frees s (s.giveBackUserLocked acct) woken := by
  unfold giveBackUserLocked
  split
  · exact ⟨[], .refl s⟩
  · split
    · exact ⟨[], by simp, .refl _, fun _ _ h => h⟩
    · exact decrementPerUser_frees hn acct.key

theorem Frees.nodup (h : Frees s s' l) : (s'.userWaiters ++ s'.tokens).Nodup := by
  have ht : s'.tokens = s.tokens ++ l := by rw [h.frame]
  rw [ht]
  exact (nodup_handed h.perm hn).2

/-- The keys are woken one after the other, in whatever order the map is ranged over. -/
theorem wakeAll_frees (order : List UserKey) :
    ∃ woken, Frees s (order.foldl wakeUserWaiter s) woken := by
  induction order generalizing s with
  | nil => exact ⟨[], .refl s⟩
  | cons key order ih =>
    obtain ⟨l, h⟩ := wakeUserWaiter_wakes hn key
    obtain ⟨l', h'⟩ := ih (h.toFrees.nodup hn)
    exact ⟨l ++ l', h.toFrees.trans h'⟩

theorem withPerUserCap_frees (n : Int) (order : List UserKey) :
    ∃ woken, Frees { s with maxPerUser := n } (s.withPerUserCap n order) woken :=
  @wakeAll_frees { s with maxPerUser := n } hn order

end Semaphore

end Loomcycle.Concurrency
