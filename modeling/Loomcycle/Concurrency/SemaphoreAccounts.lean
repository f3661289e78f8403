import Loomcycle.Concurrency.SemaphoreSpecs
import Mathlib.Algebra.GroupWithZero.Nat

/-! # The semaphore's accounts

What its counters and queues have to agree on with the calls in progress, in any
interleaving: who waits where, who was handed a slot and has not resumed, and how many
hold, lend or keep a place. Most steps touch few of the fields, so the waiters' side is
stated over the part of the state it reads. -/

namespace Loomcycle.Concurrency
open Lib

/-- It waits on its user's cap, not for a slot. -/
def SemWaiter.forCap (w : SemWaiter) : Bool := w.reason = some .userCap

/-- The waiter a call blocks on. -/
def Proc.waiter? : Proc → Option SemWaiter
  | .userWaiting _ w => some w
  | .waiting w _ _ _ => some w
  | .reclaiming w _ => some w
  | _ => none

/-- A call blocks on a waiter of its own kind, and only a run that names its user waits
on the user's cap or keeps a place after that wait. -/
def Proc.Sound : Proc → Prop
  | .userWaiting r w => w.forCap = true ∧ w.key = r.key ∧ r.key.user ≠ ""
  | .waiting w _ _ _ => w.forCap = false
  | .reclaiming w _ => w.forCap = false
  | .admitUser r _ => r.key.user ≠ ""
  | .admitAsk r _ => r.key.user ≠ ""
  | .admitPoll r _ => r.key.user ≠ ""
  | .polling r _ _ => r.key.user ≠ ""
  | .pollEnd r _ _ => r.key.user ≠ ""
  | .admitGlobal _ acct _ holdsPlace => holdsPlace = true → acct.key.user ≠ ""
  | _ => True

/-- It has a global slot and knows it. -/
def Proc.holds : Proc → Nat
  | .holding _ _ => 1
  | _ => 0

def Proc.lends : Proc → Nat
  | .lent _ => 1
  | _ => 0

/-- It holds a place in the queue without a waiter: it moved on from its user's cap, or
it polls the cluster's counter. -/
def Proc.places : Proc → Nat
  | .admitGlobal _ _ _ holdsPlace => if holdsPlace then 1 else 0
  | .polling _ _ _ => 1
  | .pollEnd _ _ _ => 1
  | _ => 0

def waitersOf (ps : List Proc) : List SemWaiter := ps.filterMap Proc.waiter?

/-- The part of a semaphore that says who waits, with the waiters' history. -/
structure Waits where
  slot : List SemWaiter
  userWait : Multimap UserKey SemWaiter
  tokens : List SemWaiter
  nextId : Nat
  created : List SemWaiter
  received : List SemWaiter
  withdrawn : List SemWaiter
  faults : List Fault

def Semaphore.waits (s : Semaphore) : Waits :=
  ⟨s.slotWaiters, s.userWait, s.tokens, s.nextId, s.created, s.received, s.withdrawn, s.faults⟩

namespace Waits

/-- The waiters in a queue, and those handed what they waited for. -/
def pending (v : Waits) : List SemWaiter := v.slot ++ (v.userWait.values ++ v.tokens)

/-- `ws` are the waiters the calls in progress block on: each is in one queue, or its
token is sent. Those made before were received or withdrawn. -/
structure Ok (v : Waits) (ws : List SemWaiter) : Prop where
  pending : ws.Perm v.pending
  history : v.created.Perm (ws ++ (v.received ++ v.withdrawn))
  nodup : v.created.Nodup
  fresh : ∀ w ∈ v.created, w.id < v.nextId
  slot : ∀ w ∈ v.slot, w.forCap = false
  cap : ∀ k, ∀ w ∈ v.userWait.get k, w.forCap = true ∧ w.key = k
  faults : v.faults = []

variable {v : Waits} {ws : List SemWaiter} {w : SemWaiter}

theorem Ok.nodup_pending (h : v.Ok ws) : v.pending.Nodup := by
  have hn := h.history.nodup_iff.mp h.nodup
  exact h.pending.nodup_iff.mp (List.nodup_append.mp hn).1

theorem Ok.nodup_slot (h : v.Ok ws) : (v.slot ++ v.tokens).Nodup := by
  refine h.nodup_pending.sublist ?_
  exact (List.sublist_append_right _ _).append_left v.slot

theorem Ok.nodup_cap (h : v.Ok ws) : (v.userWait.values ++ v.tokens).Nodup :=
  h.nodup_pending.sublist (List.sublist_append_right _ _)

theorem Ok.forCap_of_mem (h : v.Ok ws) (hw : w ∈ v.userWait.values) : w.forCap = true := by
  obtain ⟨k, hk⟩ := Multimap.mem_values.mp hw
  exact (h.cap k w hk).1

/-- A number is used for something that is not a waiter. -/
theorem Ok.skip (h : v.Ok ws) : Ok { v with nextId := v.nextId + 1 } ws :=
  { h with fresh := fun w hw => Nat.lt_succ_of_lt (h.fresh w hw) }

variable {slot' woken : List SemWaiter} {userWait' : Multimap UserKey SemWaiter}

/-- Waiters were handed what they waited for. -/
theorem Ok.wake (h : v.Ok ws)
    (hp : (v.slot ++ v.userWait.values).Perm (woken ++ (slot' ++ userWait'.values)))
    (hs : ∀ w ∈ slot', w ∈ v.slot) (hk : ∀ k, ∀ w ∈ userWait'.get k, w ∈ v.userWait.get k) :
    Ok { v with slot := slot', userWait := userWait', tokens := v.tokens ++ woken } ws :=
  { h with
    pending := by
      refine h.pending.trans (List.perm_iff_count.mpr fun a => ?_)
      have := hp.count_eq a
      simp only [Waits.pending, List.count_append] at this ⊢
      omega
    slot := fun w hw => h.slot w (hs w hw)
    cap := fun k w hw => h.cap k w (hk k w hw) }

/-- A goroutine receives its token. -/
theorem Ok.take (h : v.Ok (w :: ws)) (hw : w ∈ v.tokens) :
    Ok { v with tokens := v.tokens.erase w, received := v.received ++ [w] } ws :=
  { h with
    pending := by
      refine List.perm_iff_count.mpr fun a => ?_
      have hp := h.pending.count_eq a
      have he := (List.perm_cons_erase hw).count_eq a
      simp only [Waits.pending, List.count_append, List.count_cons] at hp he ⊢
      omega
    history := by
      refine h.history.trans (List.perm_iff_count.mpr fun a => ?_)
      simp only [List.count_append, List.count_cons, List.count_nil]
      omega }

/-- A waiter leaves the queue it is in. -/
theorem Ok.withdraw (h : v.Ok (w :: ws))
    (hp : (v.slot ++ v.userWait.values).Perm (w :: (slot' ++ userWait'.values)))
    (hs : ∀ w ∈ slot', w ∈ v.slot) (hk : ∀ k, ∀ w ∈ userWait'.get k, w ∈ v.userWait.get k) :
    Ok { v with
      slot := slot', userWait := userWait', withdrawn := v.withdrawn ++ [w] } ws :=
  { h with
    pending := by
      refine List.perm_iff_count.mpr fun a => ?_
      have h1 := h.pending.count_eq a
      have h2 := hp.count_eq a
      simp only [Waits.pending, List.count_append, List.count_cons] at h1 h2 ⊢
      omega
    history := by
      refine h.history.trans (List.perm_iff_count.mpr fun a => ?_)
      simp only [List.count_append, List.count_cons, List.count_nil]
      omega
    slot := fun w hw => h.slot w (hs w hw)
    cap := fun k w hw => h.cap k w (hk k w hw) }

/-- A new waiter joins a queue. -/
theorem Ok.join (h : v.Ok ws) (hid : w.id = v.nextId)
    (hp : (slot' ++ userWait'.values).Perm (w :: (v.slot ++ v.userWait.values)))
    (hs : ∀ x ∈ slot', x.forCap = false)
    (hk : ∀ k, ∀ x ∈ userWait'.get k, x.forCap = true ∧ x.key = k) :
    Ok { v with
      slot := slot', userWait := userWait'
      nextId := v.nextId + 1, created := v.created ++ [w] } (w :: ws) where
  pending := by
    refine List.perm_iff_count.mpr fun a => ?_
    have h1 := h.pending.count_eq a
    have h2 := hp.count_eq a
    simp only [Waits.pending, List.count_append, List.count_cons] at h1 h2 ⊢
    omega
  history := by
    refine List.perm_iff_count.mpr fun a => ?_
    have h1 := h.history.count_eq a
    simp only [List.count_append, List.count_cons, List.count_nil] at h1 ⊢
    omega
  nodup := by
    rw [← List.concat_eq_append]
    exact h.nodup.concat fun hw => Nat.ne_of_lt (h.fresh w hw) hid
  fresh x hx := by
    rcases List.mem_append.mp hx with hx | hx
    · exact Nat.lt_succ_of_lt (h.fresh x hx)
    · rw [List.mem_singleton.mp hx, hid]
      exact Nat.lt_succ_self _
  slot := hs
  cap := hk
  faults := h.faults

end Waits

/-- How much of something the calls have together. -/
def total (f : Proc → Nat) (ps : List Proc) : Int := ((ps.map f).sum : Nat)

@[simp] theorem total_cons (f : Proc → Nat) (p : Proc) (ps : List Proc) :
    total f (p :: ps) = f p + total f ps := by
  simp [total]

theorem total_add (f g : Proc → Nat) (ps : List Proc) :
    total (fun p => f p + g p) ps = total f ps + total g ps := by
  induction ps with
  | nil => rfl
  | cons p ps ih =>
    simp only [total_cons, ih]
    omega

theorem total_perm (f : Proc → Nat) {ps ps' : List Proc} (h : ps.Perm ps') :
    total f ps = total f ps' := by
  simp only [total, (h.map f).sum_nat]

theorem waitersOf_cons (p : Proc) (ps : List Proc) :
    waitersOf (p :: ps) = p.waiter?.toList ++ waitersOf ps := by
  unfold waitersOf
  cases hp : p.waiter? <;> simp [hp]

/-- The tokens that are a global slot, and those that are a count and a place. -/
def slotTokens (l : List SemWaiter) : Int := (l.countP fun w => !w.forCap : Nat)

def capTokens (l : List SemWaiter) : Int := (l.countP SemWaiter.forCap : Nat)

theorem length_eq_tokens (l : List SemWaiter) :
    (l.length : Int) = capTokens l + slotTokens l := by
  have h := List.length_eq_countP_add_countP (p := SemWaiter.forCap) (l := l)
  have hn : l.countP (fun w => !w.forCap) = l.countP (fun w => decide (¬ w.forCap = true)) :=
    List.countP_congr fun w _ => by simp
  simp only [capTokens, slotTokens]
  omega

/-- Counters, queues and calls agree. -/
structure Accounts (s : Semaphore) (ps : List Proc) : Prop where
  ok : s.waits.Ok (waitersOf ps)
  sound : ∀ p ∈ ps, p.Sound
  active : s.active = total Proc.holds ps + slotTokens s.tokens
  lent : s.lent = total Proc.lends ps
  queued : s.queued = s.slotWaiters.length + s.userWaiters.length + capTokens s.tokens +
    total Proc.places ps

/-- No waiter is left beside a free slot. -/
def Semaphore.Idle (s : Semaphore) : Prop := s.active < s.maxConcurrent → s.slotWaiters = []

namespace Accounts

variable {s s' : Semaphore} {ps ps' rest : List Proc} {p p' : Proc} {w : SemWaiter}

theorem perm (h : Accounts s ps) (hp : ps.Perm ps') : Accounts s ps' where
  ok := by
    have hw : (waitersOf ps).Perm (waitersOf ps') := hp.filterMap _
    exact { h.ok with
      pending := hw.symm.trans h.ok.pending
      history := h.ok.history.trans (hw.append_right _) }
  sound p hm := h.sound p (hp.mem_iff.mpr hm)
  active := by rw [h.active, total_perm _ hp]
  lent := by rw [h.lent, total_perm _ hp]
  queued := by rw [h.queued, total_perm _ hp]

variable {woken : List SemWaiter}

/-- The waiters the calls block on are those in the queues and those with a token, so the counters
need only say what becomes of the tokens. -/
theorem recount (h : Accounts s ps) (hok : s'.waits.Ok (waitersOf ps'))
    (hsound : ∀ p ∈ ps', p.Sound)
    (hactive : s'.active + total Proc.holds ps + slotTokens s.tokens =
      s.active + total Proc.holds ps' + slotTokens s'.tokens)
    (hlent : s'.lent + total Proc.lends ps = s.lent + total Proc.lends ps')
    (hqueued : s'.queued + total Proc.places ps + slotTokens s'.tokens + (waitersOf ps).length =
      s.queued + total Proc.places ps' + slotTokens s.tokens + (waitersOf ps').length) :
    Accounts s' ps' := by
  have hlen := hok.pending.length_eq
  have hlen' := h.ok.pending.length_eq
  have ht := length_eq_tokens s.tokens
  have ht' := length_eq_tokens s'.tokens
  simp only [Waits.pending, List.length_append, Semaphore.waits] at hlen hlen'
  obtain ⟨-, -, ha, hl, hq⟩ := h
  refine ⟨hok, hsound, by omega, by omega, ?_⟩
  simp only [Semaphore.userWaiters] at hq ⊢
  omega

/-- A waiter that is handed a slot leaves the queue; one that is handed a count keeps its place. -/
theorem wakes (h : Accounts s ps) (hok : s'.waits.Ok (waitersOf ps))
    (ht : s'.tokens = s.tokens ++ woken) (hactive : s'.active = s.active + slotTokens woken)
    (hlent : s'.lent = s.lent) (hqueued : s'.queued = s.queued - slotTokens woken) :
    Accounts s' ps := by
  have htokens : slotTokens (s.tokens ++ woken) = slotTokens s.tokens + slotTokens woken := by
    simp [slotTokens]
  rw [← ht] at htokens
  exact h.recount hok h.sound (by omega) (by omega) (by omega)

theorem hands (h : Accounts s ps) (hh : s.Hands s' woken) : Accounts s' ps := by
  have hf := hh.frame
  have hslots : slotTokens woken = woken.length := by
    rw [slotTokens, List.countP_eq_length.mpr fun w hw => ?_]
    simp [h.ok.slot w (hh.perm.mem_iff.mpr (List.mem_append_left _ hw))]
  have hok := h.ok.wake ((hh.perm.append_right s.userWait.values).trans
    (.of_eq (List.append_assoc ..))) (fun w hw => hh.perm.mem_iff.mpr (List.mem_append_right _ hw))
    (fun _ _ hw => hw)
  refine h.wakes ?_ (by rw [hf]) (by rw [hf, hslots]) (by rw [hf]) (by rw [hf, hslots])
  rw [hf]
  exact hok

theorem wakeNextLocked (h : Accounts s ps) :
    Accounts s.wakeNextLocked ps ∧ s.wakeNextLocked.Idle := by
  obtain ⟨woken, hh⟩ := Semaphore.wakeNextLocked_hands h.ok.nodup_slot
  exact ⟨h.hands hh, Semaphore.wakeNextLoop_idle (by simp [Semaphore.slotWaiters])⟩

theorem frees (h : Accounts s ps) (hh : s.Frees s' woken) : Accounts s' ps := by
  have hf := hh.frame
  have hslots : slotTokens woken = 0 := by
    rw [slotTokens, List.countP_eq_zero.mpr fun w hw => ?_]
    · rfl
    · simp [h.ok.forCap_of_mem (hh.perm.mem_iff.mpr (List.mem_append_left _ hw))]
  have hok := h.ok.wake ((hh.perm.append_left s.slotWaiters).trans (List.perm_append_comm_assoc ..))
    (fun _ hw => hw) hh.kept
  refine h.wakes ?_ (by rw [hf]) (by rw [hf, hslots, Int.add_zero]) (by rw [hf])
    (by rw [hf, hslots, Int.sub_zero])
  rw [hf]
  exact hok

/-- Moving runs on from a user's cap frees no slot and takes none. -/
theorem frees_idle (hi : s.Idle) (hh : s.Frees s' woken) : s'.Idle := by
  have hf := hh.frame
  intro hact
  rw [show s'.slotWaiters = s.slotWaiters by rw [hf]; rfl]
  exact hi (by rw [hf] at hact; exact hact)

theorem giveBackUserLocked (h : Accounts s ps) (acct : Account) :
    Accounts (s.giveBackUserLocked acct) ps ∧ (s.Idle → (s.giveBackUserLocked acct).Idle) := by
  obtain ⟨woken, hh⟩ := Semaphore.giveBackUserLocked_frees h.ok.nodup_cap acct
  exact ⟨h.frees hh, fun hi => frees_idle hi hh⟩

/-! ## One call moves -/

section

variable (h : Accounts s (p :: rest))
include h

theorem ok_cons {w : Option SemWaiter} (hw : p.waiter? = w) :
    s.waits.Ok (w.toList ++ waitersOf rest) :=
  hw ▸ waitersOf_cons p rest ▸ h.ok

theorem sound_cons (hsound : p'.Sound) : ∀ q ∈ p' :: rest, q.Sound :=
  List.forall_mem_cons.mpr ⟨hsound, fun q hq => h.sound q (List.mem_cons_of_mem p hq)⟩

theorem change (hok : s'.waits.Ok (waitersOf (p' :: rest)))
    (hsound : p'.Sound)
    (hactive : s'.active + p.holds + slotTokens s.tokens =
      s.active + p'.holds + slotTokens s'.tokens)
    (hlent : s'.lent + p.lends = s.lent + p'.lends)
    (hqueued : s'.queued + p.places + slotTokens s'.tokens + p.waiter?.toList.length =
      s.queued + p'.places + slotTokens s.tokens + p'.waiter?.toList.length) :
    Accounts s' (p' :: rest) := by
  refine h.recount hok (h.sound_cons hsound) ?_ ?_ ?_
  all_goals simp only [total_cons, waitersOf_cons, List.length_append]; omega

/-- Neither before nor after does the call block on a waiter. -/
theorem move (hw : p.waiter? = none) (hw' : p'.waiter? = none)
    (hsound : p'.Sound) (hv : s'.waits = s.waits)
    (hactive : s'.active + p.holds = s.active + p'.holds)
    (hlent : s'.lent + p.lends = s.lent + p'.lends)
    (hqueued : s'.queued + p.places = s.queued + p'.places) : Accounts s' (p' :: rest) := by
  have htok : s'.tokens = s.tokens := congrArg Waits.tokens hv
  have hok : s'.waits.Ok (waitersOf (p' :: rest)) := by
    rw [hv, waitersOf_cons, hw', ← hw, ← waitersOf_cons]
    exact h.ok
  refine h.change hok hsound ?_ hlent ?_
  · rw [htok, hactive]
  · rw [htok, hw, hw', hqueued]

end

end Accounts

end Loomcycle.Concurrency
