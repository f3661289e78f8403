import Loomcycle.Concurrency.SlotAccounting
import Loomcycle.Concurrency.UserCap

/-! # The users' counts

Whether a call is counted against its user is decided when it is taken and remembered to
its end, whatever the cap is switched to meanwhile. So the count of a user is the number of
its calls in progress that were counted, and the cap bounds those that it let in. -/

namespace Loomcycle.Concurrency
open Lib Lib.Transition

/-- What a map of counters holds for `n`: nothing is absent. -/
def tally (n : Int) : Option Int := if n ≤ 0 then none else some n

variable {s t : Semaphore} {p p' : Proc} {rest : List Proc} {w w' : World} {l : Label}
  {k key : UserKey} {m : UserKey → Option Int} {n : Int}

theorem count_eq_of_tally (h : m k = tally n) (hn : 0 ≤ n) : count m k = n := by
  rw [count, h, tally]
  split
  · have : n = 0 := by omega
    rw [this]
    rfl
  · rfl

variable {f : UserKey → Int}

theorem increment_tally (hf : 0 ≤ f key) (h : ∀ k, m k = tally (f k)) (k : UserKey) :
    increment m key k = tally (f k + if k = key then 1 else 0) := by
  unfold increment
  by_cases hk : k = key
  · subst hk
    rw [Function.update_self, count_eq_of_tally (h k) hf, if_pos rfl, tally, if_neg (by omega)]
  · rw [Function.update_of_ne hk, h, if_neg hk, Int.add_zero]

theorem decrement_tally (hf : 0 ≤ f key)
    (h : ∀ k, m k = tally (f k + if k = key then 1 else 0)) (k : UserKey) :
    decrement m key k = tally (f k) := by
  unfold decrement
  by_cases hk : k = key
  · subst hk
    have hcount := count_eq_of_tally (h k) (by rw [if_pos rfl]; omega)
    rw [if_pos rfl] at hcount
    rw [Function.update_self, hcount, Int.add_sub_cancel, tally]
  · rw [Function.update_of_ne hk, h, if_neg hk, Int.add_zero]

theorem total_nonneg (f : Proc → Nat) (ps : List Proc) : 0 ≤ total f ps :=
  Int.natCast_nonneg _

/-! ## One step -/

variable {woken : List SemWaiter} {c : UserKey → Int} {d b : Int} {order : List UserKey}
  {acct : Account}

/-- Those on a user's list wait for that user's cap. -/
def Semaphore.CapListed (s : Semaphore) : Prop :=
  ∀ k, ∀ x ∈ s.userWait.get k, x.forCap = true ∧ x.key = k

/-- The runs woken have their counts in their channels. -/
theorem Semaphore.WakesUser.handed_eq (h : s.WakesUser key t woken) (hcap : s.CapListed)
    (k : UserKey) :
    t.handed k = s.handed k + if k = key then woken.length else 0 := by
  have ht : t.tokens = s.tokens ++ woken := by rw [h.frame]
  have hwoken : ∀ x ∈ woken, x.forCap = true ∧ x.key = key := fun x hx =>
    hcap key x (by rw [h.list]; exact List.mem_append_left _ hx)
  rw [Semaphore.handed, ht, List.countP_append]
  congr 1
  split
  · next hk =>
    refine List.countP_eq_length.mpr fun x hx => ?_
    simp [hwoken x hx, hk]
  · next hk =>
    refine List.countP_eq_zero.mpr fun x hx => ?_
    simp [hwoken x hx, Ne.symm hk]

/-- `c` is what the calls hold of each user's count. -/
def Semaphore.Tallies (s : Semaphore) (c : UserKey → Int) : Prop :=
  ∀ k, 0 ≤ c k ∧ s.perUser k = tally (c k + s.handed k)

theorem Semaphore.Tallies.count (h : s.Tallies c) (k : UserKey) :
    count s.perUser k = c k + s.handed k :=
  count_eq_of_tally (h k).2 (by have := (h k).1; omega)

theorem SameUsers.tallies_iff (h : SameUsers s t) : t.Tallies c ↔ s.Tallies c := by
  simp only [Semaphore.Tallies, h.perUser, h.handed]

theorem Semaphore.WakesUser.tallies (h : s.WakesUser key t woken) (hcap : s.CapListed)
    (hs : s.Tallies c) : t.Tallies c := by
  intro k
  refine ⟨(hs k).1, ?_⟩
  rw [h.perUser, h.handed_eq hcap]
  split
  · next hk =>
    obtain ⟨rfl, hne⟩ := hk
    have hpos : 0 < woken.length := List.length_pos_iff.mpr hne
    have := (hs k).1
    rw [hs.count, if_pos rfl, tally, if_neg (by omega)]
    congr 1
    omega
  · next hk =>
    rw [(hs k).2]
    congr 2
    by_cases hkey : k = key
    · have hnil : woken = [] := Classical.byContradiction fun hne => hk ⟨hkey, hne⟩
      simp [hnil]
    · simp [hkey]

theorem Semaphore.Tallies.congr {c' : UserKey → Int} (h : s.Tallies c) (hc : ∀ k, c k = c' k) :
    s.Tallies c' :=
  funext hc ▸ h

theorem tallies_decrement (hc : ∀ k, 0 ≤ c k)
    (hs : s.Tallies fun k => c k + if k = key then 1 else 0) :
    ({ s with perUser := decrement s.perUser key } : Semaphore).Tallies c := by
  refine fun k => ⟨hc k, decrement_tally (f := fun k => c k + s.handed k) ?_ (fun k => ?_) k⟩
  · have := hc key
    omega
  · exact (hs k).2.trans (congrArg tally (Int.add_right_comm ..))

theorem tallies_increment (hs : s.Tallies c) (hperUser : t.perUser = increment s.perUser key)
    (hhanded : ∀ k, t.handed k = s.handed k) :
    t.Tallies fun k => c k + if k = key then 1 else 0 := by
  refine fun k => ⟨Int.add_nonneg (hs k).1 (by split <;> decide), ?_⟩
  have hkey := (hs key).1
  rw [hperUser, hhanded, increment_tally (f := fun k => c k + s.handed k) (by omega)
    fun k => (hs k).2]
  exact congrArg tally (Int.add_right_comm ..)

/-- Before the map of counts is made nobody is counted, and nobody waits to be. -/
def Semaphore.MadeFirst (s : Semaphore) : Prop :=
  s.perUserMade = false → ∀ k, s.perUser k = none ∧ s.userWait.get k = []

/-- The calls' counts, of which `c` are the other calls'. -/
def Proc.held (c : UserKey → Int) (p : Proc) (k : UserKey) : Int :=
  c k + p.has .capped k + p.has .resumed k

theorem tallies_gives {s₀ : Semaphore} (huser : key.user ≠ "") (hperUser : s₀.perUser = s.perUser)
    (hmade : s₀.perUserMade = s.perUserMade) (hnodup : (s₀.userWaiters ++ s₀.tokens).Nodup)
    (hafter : SameUsers (s₀.decrementPerUser key) t)
    (hcap : s₀.CapListed) (hc : ∀ k, 0 ≤ c k)
    (hloses : ∀ k, p'.has .capped k + p'.has .resumed k + s₀.handed k + (if k = key then 1 else 0) =
      p.has .capped k + p.has .resumed k + s.handed k) (hfirst : s.MadeFirst)
    (hs : s.Tallies (p.held c)) : t.Tallies (p'.held c) ∧ t.MadeFirst := by
  have hs₀ : s₀.Tallies fun k => p'.held c k + if k = key then 1 else 0 := by
    intro k
    have hk := hs k
    have := hc k
    have := hloses k
    simp only [Proc.held] at hk ⊢
    refine ⟨by split <;> omega, ?_⟩
    rw [hperUser, hk.2]
    congr 1
    split at this <;> simp_all <;> omega
  rcases Semaphore.decrementPerUser_wakes hnodup huser with ⟨hm, he⟩ | ⟨hm, woken, hw⟩
  · -- nothing is counted yet, and the call's own count is
    have hzero := hs₀.count key
    have := hc key
    rw [count, hperUser, (hfirst (hmade.symm.trans hm) key).1] at hzero
    simp only [Proc.held, if_true, Option.getD_none] at hzero
    omega
  · have hheld : ∀ k, 0 ≤ p'.held c k := fun k => by
      have := hc k
      simp only [Proc.held]
      omega
    have hd := tallies_decrement hheld hs₀
    refine ⟨hafter.tallies_iff.mpr (hw.tallies hcap hd), fun hfalse => ?_⟩
    rw [hafter.made, hw.frame, hm] at hfalse
    cases hfalse

theorem UserStep.tallies (h : UserStep s p t p') (hc : ∀ k, 0 ≤ c k) (hcap : s.CapListed)
    (hon : ∀ acct, p.account? = some acct → acct.key.user ≠ "" → acct.counting ≠ .uncounted)
    (hfirst : s.MadeFirst) (hs : s.Tallies (p.held c)) : t.Tallies (p'.held c) ∧ t.MadeFirst := by
  -- what the call and the channels hold together does not change
  have hkeep : t.perUser = s.perUser →
      (∀ k, p'.has .capped k + p'.has .resumed k + t.handed k =
        p.has .capped k + p.has .resumed k + s.handed k) → t.Tallies (p'.held c) := by
    intro hperUser heq k
    have hk := hs k
    have := hc k
    have := heq k
    simp only [Proc.held] at hk ⊢
    refine ⟨by omega, ?_⟩
    rw [hperUser, hk.2]
    congr 1
    omega
  cases h with
  | same perUser userWait made capped resumed =>
    refine ⟨hkeep perUser fun k => ?_, fun hm => ?_⟩
    · have := capped k
      have := resumed k
      omega
    · rw [perUser, userWait]
      refine hfirst (Bool.eq_false_iff.mpr fun htrue => ?_)
      rw [made htrue] at hm
      cases hm
  | counts key cap captured room perUser userWait made handed capped resumed
  | resumes key perUser userWait made handed capped resumed =>
    refine ⟨(tallies_increment hs perUser handed).congr fun k => ?_,
      fun hm => by rw [made] at hm; cases hm⟩
    simp only [Proc.held, capped, resumed]
    split <;> omega
  | gives key s₀ user perUser userWait made cap nodup after loses fewer =>
    have hcap₀ : s₀.CapListed := by rw [Semaphore.CapListed, userWait]; exact hcap
    exact tallies_gives user perUser made nodup after hcap₀ hc (loses hon) hfirst hs
  | queues r cap x source target full perUser userWait made handed =>
    subst source target
    exact ⟨hkeep perUser fun k => by rw [handed]; rfl, fun hm => by rw [made] at hm; cases hm⟩
  | withdraws r x source target perUser userWait made handed =>
    subst source
    refine ⟨hkeep perUser fun k => ?_, fun hm => ?_⟩
    · rw [handed, Proc.has_of_none target, Proc.has_of_none target]
      rfl
    · intro k
      obtain ⟨hnone, hnil⟩ := hfirst (made.symm.trans hm) k
      refine ⟨by rw [perUser, hnone], ?_⟩
      rw [userWait, Multimap.get_put, hnil]
      split
      · next hk => rw [← hk, hnil]; rfl
      · rfl

/-- Waking runs keeps the counts the cap let in within the cap; `d` are those of the calls. -/
theorem Semaphore.WakesUser.within (h : s.WakesUser key t woken) (hd : d ≤ c k)
    (hcap : s.CapListed) (hmax : s.maxPerUser = b) (hpos : 0 < b) (ht : t.Tallies c)
    (hb : d + s.handed k ≤ b) : d + t.handed k ≤ b := by
  by_cases hk : k = key ∧ woken ≠ []
  · -- a run was woken, so the user is within the cap now
    obtain ⟨rfl, hne⟩ := hk
    have hbound := h.bound hne (by rw [hmax]; exact hpos)
    rw [hmax, ht.count] at hbound
    omega
  · have hzero : (if k = key then woken.length else 0) = 0 := by
      split
      · next hkey =>
        rw [Classical.byContradiction fun hne => hk ⟨hkey, hne⟩]
        rfl
      · rfl
    rw [h.handed_eq hcap k, hzero]
    exact hb

/-- While the cap is `b` for everybody, it bounds the counts it let in; `d` are the other
calls' of them. -/
theorem UserStep.within (h : UserStep s p t p') (hd : d ≤ c k) (hcap : s.CapListed)
    (hmax : s.maxPerUser = b) (hpos : 0 < b)
    (hread : ∀ cap, p.captured = some (k, cap) → cap = b) (hs : s.Tallies (p.held c))
    (ht : t.Tallies (p'.held c)) (hb : d + p.has .capped k + s.handed k ≤ b) :
    d + p'.has .capped k + t.handed k ≤ b := by
  cases h with
  | same perUser userWait made capped resumed =>
    have := capped k
    omega
  | counts key cap captured room perUser userWait made handed capped resumed =>
    have := capped k
    rw [handed]
    split at this
    · next hk =>
      subst hk
      have hroom := hread cap captured
      rw [hs.count] at room
      simp only [Proc.held] at room
      omega
    · omega
  | resumes key perUser userWait made handed capped resumed =>
    rw [handed, capped]
    exact hb
  | gives key s₀ user perUser userWait made cap nodup after loses fewer =>
    have hfew := fewer k
    rw [after.handed]
    rcases Semaphore.decrementPerUser_wakes nodup user with ⟨-, he⟩ | ⟨-, woken, hw⟩
    · rw [he]
      omega
    have hcap₀ : s₀.CapListed := by rw [Semaphore.CapListed, userWait]; exact hcap
    refine hw.within ?_ hcap₀ (cap.trans hmax) hpos (after.tallies_iff.mp ht) ?_
    · simp only [Proc.held]
      omega
    · change d + p'.has .capped k + s₀.handed k ≤ b
      omega
  | queues r cap x source target full perUser userWait made handed =>
    subst source target
    rw [handed]
    exact hb
  | withdraws r x source target perUser userWait made handed =>
    subst source
    rw [handed, Proc.has_of_none target]
    exact hb

theorem wakeAll_of_empty (h : ∀ k, s.userWait.get k = []) :
    order.foldl Semaphore.wakeUserWaiter s = s := by
  induction order with
  | nil => rfl
  | cons key order ih =>
    have hstay : s.wakeUserWaiter key = s := by
      rw [Semaphore.wakeUserWaiter, h key]
      rfl
    rw [List.foldl_cons, hstay, ih]

/-- A reload of the cap moves runs on user by user. -/
theorem wakeAll_induction {I : Semaphore → Prop} (hn : (s.userWaiters ++ s.tokens).Nodup)
    (hcap : s.CapListed) (hI : I s)
    (hwake : ∀ {s key t woken}, s.WakesUser key t woken → s.CapListed → I s → I t) :
    I (order.foldl Semaphore.wakeUserWaiter s) := by
  induction order generalizing s with
  | nil => exact hI
  | cons key order ih =>
    obtain ⟨woken, hw⟩ := Semaphore.wakeUserWaiter_wakes hn key
    exact ih (hw.toFrees.nodup hn) (fun k x hx => hcap k x (hw.kept k x hx)) (hwake hw hcap hI)

theorem wakeAll_within (hd : d ≤ c k) (hn : (s.userWaiters ++ s.tokens).Nodup)
    (hcap : s.CapListed) (hmax : s.maxPerUser = b) (hpos : 0 < b) (hs : s.Tallies c)
    (hb : d + s.handed k ≤ b) : d + (order.foldl Semaphore.wakeUserWaiter s).handed k ≤ b := by
  refine (wakeAll_induction (I := fun s => s.maxPerUser = b ∧ s.Tallies c ∧ d + s.handed k ≤ b)
    hn hcap ⟨hmax, hs, hb⟩ fun hw hcap ⟨hmax, hs, hb⟩ => ?_).2.2
  have ht := hw.tallies hcap hs
  exact ⟨by rw [hw.frame]; exact hmax, ht, hw.within hd hcap hmax hpos ht hb⟩

/-! ## Runs -/

/-- What it gives back it has counted. -/
def Account.Paid (acct : Account) : Prop := acct.key.user ≠ "" → acct.counting ≠ .uncounted

def Proc.Paid : Proc → Prop
  | .acquireAsk key cap => key.user ≠ "" → 0 < cap
  | .acquireTake key _ cap => key.user ≠ "" → 0 < cap
  | .waitTake acct _ => acct.Paid
  | p => ∀ acct, p.account? = some acct → acct.Paid

theorem Goes.paid {qs : Bool} (h : Goes qs p p') (hne : ∀ key, p ≠ .entering (.acquireForUser key))
    (hp : p.Paid) : p'.Paid := by
  cases h with
  | acquireAsk | acquireTake => exact absurd rfl (hne _)
  | acquireAnswered => exact hp
  | acquireHeld | acquireQueued =>
    rintro _ ⟨⟩ huser
    simp [Semaphore.countsUser, hp huser, huser]
  | waitUncounted | countFailed => exact fun huser => absurd rfl huser
  | waitCounted | countAnswered => exact fun _ => Counting.noConfusion
  | waitTakeHeld | waitTakeQueued =>
    rintro _ ⟨⟩
    exact hp
  | _ =>
    rintro _ ⟨⟩ <;> first
      | exact hp _ rfl
      | exact fun huser => absurd rfl huser
      | exact fun _ => Counting.noConfusion

/-- An `AcquireForUser` that names a user reads a cap in force: otherwise it counts nobody and at
its end gives back a count all the same. -/
def AcquiresCounted (w : World) (l : Label) : Prop :=
  ∀ i key, l = .act i .proceed → w.procs[i]? = some (.entering (.acquireForUser key)) →
    key.user ≠ "" → 0 < w.sem.maxPerUser

theorem paid_step (hP : AcquiresCounted w l) (hw : ∀ p ∈ w.procs, p.Paid) (h : step w l = some w') :
    ∀ p ∈ w'.procs, p.Paid := by
  intro p' hmem
  obtain ⟨i, hi⟩ := List.mem_iff_getElem?.mp hmem
  obtain ⟨c, -, rfl⟩ | hold | ⟨p, a, rfl, hp, ha⟩ := proc_step h hi
  · exact nofun
  · exact hw p' (List.mem_of_getElem? hold)
  · by_cases hacquire : ∃ key, p = .entering (.acquireForUser key)
    · obtain ⟨key, rfl⟩ := hacquire
      cases a with
      | proceed =>
        have hcap := hP i key rfl hp
        obtain ⟨-, rfl⟩ := eq_of_some (x := w.sem.enter (.acquireForUser key)) ha
        simp only [Semaphore.enter]
        split <;> exact hcap
      | quota q => cases q <;> cases ha
      | _ => cases ha
    · exact (acts_act ha).goes.paid (fun key hkey => hacquire ⟨key, hkey⟩)
        (hw p (List.mem_of_getElem? hp))

/-- `Admit`, `ReserveUser`, `WaitForUser` and the calls that count nobody, in single-replica
mode: not `AcquireForUser`, which gives a count back that it may not have taken. -/
def UserCalls (_ : World) (l : Label) : Prop :=
  l ≠ .withUserQuotaStore true ∧ ∀ key, l ≠ .call (.acquireForUser key)

/-- It is counted unless it names no user. -/
def Account.Honest (acct : Account) : Prop :=
  acct.counting = .uncounted ↔ acct.key.user = ""

def Proc.Honest : Proc → Prop
  | .entering (.acquireForUser _) => False
  | .acquireAsk _ _ => False
  | .acquireTake _ _ _ => False
  | .reserveTake key _ => key.user ≠ ""
  | .waitTake acct _ => acct.Honest
  | .admitUser r _ => r.key.user ≠ ""
  | .userWaiting r _ => r.key.user ≠ ""
  | .reserved acct => acct.Honest
  | .admitGlobal _ acct _ _ => acct.Honest
  | .waiting _ acct _ _ => acct.Honest
  | .holding acct _ => acct.Honest
  | .lent acct => acct.Honest
  | .reclaiming _ acct => acct.Honest
  | .endingLent acct => acct.Honest
  | _ => True

theorem Account.honest_of_user {qs : Bool} {how : Counting} (hhow : how ≠ .uncounted)
    (huser : key.user ≠ "") : Account.Honest ⟨key, qs, how⟩ :=
  ⟨fun h => absurd h hhow, fun h => absurd h huser⟩

theorem Goes.honest (h : Goes false p p') (hl : p.Local) (hp : p.Honest) : p'.Honest := by
  cases h with
  | reserveTake _ huser | admitUser _ huser => exact huser
  | reserved | userCounted | userWoken => exact Account.honest_of_user (by decide) hp
  | waitCounted huser => exact Account.honest_of_user (by decide) huser
  | _ =>
    first | trivial | exact hp | exact hp.elim | exact hl.elim | exact ⟨fun _ => rfl, fun _ => rfl⟩

theorem Proc.Honest.account (h : p.Honest) (ha : p.account? = some acct) : acct.Honest := by
  cases p <;> first | cases ha; exact h | cases ha

/-- The calls' counts of the user `k`. -/
def World.held (w : World) (k : UserKey) : Int :=
  total (Proc.has .capped k) w.procs + total (Proc.has .resumed k) w.procs

theorem Proc.Honest.paid (h : p.Honest) : p.Paid := by
  have hpaid : ∀ {acct : Account}, acct.Honest → acct.Paid := fun ha huser hun => huser (ha.mp hun)
  cases p with
  | acquireAsk key cap | acquireTake key qs cap => exact h.elim
  | waitTake acct here => exact hpaid h
  | _ => exact fun acct hacct => hpaid (h.account hacct)

/-- The users' counts are those of the calls and of the channels, in either mode. -/
structure World.Counts (w : World) : Prop where
  balanced : w.Balanced
  named : ∀ p ∈ w.procs, p.Named
  paid : ∀ p ∈ w.procs, p.Paid
  madeFirst : w.sem.MadeFirst
  tallies : w.sem.Tallies w.held

/-- Single-replica mode, with calls that are counted unless they name no user. -/
structure World.Tallied (w : World) : Prop extends w.Counts where
  single : w.Local
  honest : ∀ p ∈ w.procs, p.Honest

theorem held_of_perm (h : w.procs.Perm (p :: rest)) :
    w.held = p.held fun k => total (Proc.has .capped k) rest + total (Proc.has .resumed k) rest := by
  funext k
  rw [World.held, total_perm _ h, total_perm _ h, total_cons, total_cons, Proc.held]
  omega

theorem counts_init (maxConcurrent maxQueue timeout : Int) :
    (World.init maxConcurrent maxQueue timeout).Counts where
  balanced := balanced_init _ _ _
  named := nofun
  paid := nofun
  madeFirst _ _ := ⟨rfl, rfl⟩
  tallies _ := ⟨Int.le_refl _, rfl⟩

theorem tallied_init (maxConcurrent maxQueue timeout : Int) :
    (World.init maxConcurrent maxQueue timeout).Tallied :=
  ⟨counts_init _ _ _, ⟨rfl, nofun⟩, nofun⟩

theorem total_has_call (how : Counting) (k : UserKey) (ps : List Proc) (c : Call) :
    total (Proc.has how k) (ps ++ [.entering c]) = total (Proc.has how k) ps := by
  rw [total_perm _ List.perm_append_comm, List.singleton_append, total_cons,
    Proc.has_of_none rfl]
  exact Int.zero_add _

theorem tallies_act {i : Nat} {a : Action} (hw : w.Counts) (h : step w (.act i a) = some w') :
    w'.sem.MadeFirst ∧ w'.sem.Tallies w'.held := by
  obtain ⟨p, p', rest, hp, hperm, hperm', ha, -⟩ := balanced_act hw.balanced h
  have hmem := List.mem_of_getElem? hp
  have hu := (acts_act ha).users (hw.balanced.accounts.perm hperm) (hw.named p hmem)
  have hs := hw.tallies
  rw [held_of_perm hperm] at hs
  rw [held_of_perm hperm']
  refine And.symm (hu.tallies (fun k => ?_) hw.balanced.accounts.ok.cap (fun acct hacct => ?_)
    hw.madeFirst hs)
  · have := total_nonneg (Proc.has .capped k) rest
    have := total_nonneg (Proc.has .resumed k) rest
    omega
  · have hpaid := hw.paid p hmem
    cases p <;> first | exact hpaid acct hacct | cases hacct

theorem tallies_step (hw : w.Counts) (h : step w l = some w') :
    w'.sem.MadeFirst ∧ w'.sem.Tallies w'.held := by
  cases l with
  | call c =>
    cases h
    refine ⟨hw.madeFirst, hw.tallies.congr fun k => ?_⟩
    simp only [World.held, total_has_call]
  | act i a => exact tallies_act hw h
  | setCaps maxConcurrent maxQueue =>
    cases h
    have hu := sameUsers_setCaps maxConcurrent maxQueue hw.balanced
    refine ⟨fun hm k => ?_, hu.tallies_iff.mpr hw.tallies⟩
    rw [hu.perUser, hu.userWait]
    exact hw.madeFirst (hu.made.symm.trans hm) k
  | withPerUserCap n order =>
    simp only [step] at h
    split at h
    · cases h
      have hn := hw.balanced.accounts.ok.nodup_cap
      refine ⟨fun hm => ?_, wakeAll_induction (s := { w.sem with maxPerUser := n }) hn
        hw.balanced.accounts.ok.cap hw.tallies fun hw hcap hs => hw.tallies hcap hs⟩
      obtain ⟨woken, hf⟩ := Semaphore.withPerUserCap_frees hn n order
      have hmade : w.sem.perUserMade = false := by
        rw [← hm]
        rw [hf.frame]
      have hnone := hw.madeFirst hmade
      have he : w.sem.withPerUserCap n order = { w.sem with maxPerUser := n } :=
        wakeAll_of_empty fun k => (hnone k).2
      intro k
      rw [he]
      exact hnone k
    · cases h
  | withQueuedPerUserCap n | withUserQuotaStore qs =>
    cases h
    exact ⟨hw.madeFirst, hw.tallies⟩

theorem counts_step (hw : w.Counts) (hpaid : ∀ p ∈ w'.procs, p.Paid) (h : step w l = some w') :
    w'.Counts := by
  obtain ⟨hfirst, htallies⟩ := tallies_step hw h
  exact ⟨(balanced_step hw.balanced h).balanced, named_step hw.named h, hpaid, hfirst, htallies⟩

theorem tallied_step (hw : w.Tallied) (hP : UserCalls w l) (h : step w l = some w') :
    w'.Tallied := by
  have hhonest : ∀ p ∈ w'.procs, p.Honest := by
    refine forall_procs_step (fun c hl => ?_) (fun hp ha hI => ?_) hw.honest h
    · cases c with
      | acquireForUser key => exact absurd hl (hP.2 key)
      | _ => trivial
    · exact (hw.single.goes ha).honest (hw.single.procs _ hp) hI
  exact ⟨counts_step hw.toCounts (fun p hp => (hhonest p hp).paid) h,
    local_step hw.balanced hw.single hP.1 h, hhonest⟩

/-- The call was counted against the user `k` when it was taken, and has not ended. A run
waiting on the cap is counted by the one that moves it on. -/
def Proc.counted (s : Semaphore) (k : UserKey) : Proc → Bool
  | .userWaiting r w => r.key = k ∧ w ∉ s.userWait.get k
  | p => match p.account? with
    | some acct => acct.key = k ∧ acct.counting ≠ .uncounted
    | none => false

theorem Proc.has_of_honest (hp : p.account? = some acct) (h : acct.Honest) (hqs : acct.qs = false) :
    p.has .capped k + p.has .resumed k =
      if acct.key = k ∧ acct.counting ≠ .uncounted then 1 else 0 := by
  rw [Proc.has_of_some hp, Proc.has_of_some hp]
  by_cases hk : acct.key = k
  · subst hk
    cases hc : acct.counting with
    | uncounted => simp [Account.has, hc]
    | capped | resumed =>
      have huser : acct.key.user ≠ "" := fun hu => by simp [h.mpr hu] at hc
      simp [Account.has, hqs, hc, huser]
  · simp [Account.has, hk]

theorem World.Tallied.counted_eq (hw : w.Tallied) (k : UserKey) :
    (w.procs.countP (Proc.counted w.sem k) : Int) = w.held k + w.sem.handed k := by
  have hacc := hw.balanced.accounts
  have hcount : (w.procs.countP (Proc.counted w.sem k) : Int) =
      total (fun p => p.has .capped k + p.has .resumed k) w.procs +
        ((waitersOf w.procs).countP fun x =>
          x.forCap && decide (x ∉ w.sem.userWait.get x.key) && decide (x.key = k) : Nat) := by
    refine countP_eq_total _ _ _ fun p hp => ?_
    have hs := hacc.sound p hp
    have hl := hw.single.procs p hp
    have hh := hw.honest p hp
    cases p with
    | userWaiting r x =>
      obtain ⟨hcap, hkey, -⟩ := hs
      by_cases hk : r.key = k
      · subst hk
        simp [Proc.counted, Proc.has, Proc.account?, Proc.waiter?, hcap, hkey, List.countP_cons]
      · simp [Proc.counted, Proc.has, Proc.account?, Proc.waiter?, hkey, hk]
    | waiting x acct kind slot | reclaiming x acct =>
      have hcap : x.forCap = false := hs
      rw [Proc.has_of_honest rfl hh hl]
      simp [Proc.counted, Proc.account?, Proc.waiter?, hcap]
    | reserved acct | admitGlobal key acct r b | holding acct slot | lent acct | endingLent acct =>
      rw [Proc.has_of_honest rfl hh hl]; simp [Proc.counted, Proc.account?, Proc.waiter?]
    | _ => rfl
  rw [hcount, hacc.countP_woken, total_add]
  rfl

/-! ## The cap -/

/-- The cap is `b` and stays so. -/
def CapStays (b : Int) (w : World) (l : Label) : Prop :=
  UserCalls w l ∧ ∀ n order, l = .withPerUserCap n order → n = b

/-- A call of the user `k` is counted, or may yet be under a cap it read already. -/
def Proc.concerns (k : UserKey) : Proc → Bool
  | .reserveTake key _ => key = k
  | .admitUser r _ => r.key = k
  | .userWaiting r _ => r.key = k
  | p => match p.account? with
    | some acct => acct.key = k ∧ acct.counting ≠ .uncounted
    | none => false

theorem Goes.captured {qs : Bool} {x : UserKey × Int} (h : Goes qs p p') (hl : p.Local)
    (hc : p'.captured = some x) : ∃ c, p = .entering c := by
  cases h <;> first | exact ⟨_, rfl⟩ | exact hl.elim | cases hc

/-- In single-replica mode a call reads the cap in force. -/
theorem captured_act {a : Action} {cap : Int} (hl : p.Local) (ha : s.act p a = some (t, p'))
    (hc : p'.captured = some (k, cap)) : cap = s.maxPerUser := by
  obtain ⟨c, rfl⟩ := (acts_act ha).goes.captured hl hc
  cases a with
  | proceed =>
    obtain ⟨-, rfl⟩ := eq_of_some (x := s.enter c) ha
    cases c with
    | acquireForUser key =>
      simp only [Semaphore.enter] at hc
      split at hc <;> cases hc
      rfl
    | reserveUser key | admitRun r =>
      simp only [Semaphore.enter] at hc
      split at hc
      · cases hc
      · split at hc <;> cases hc
        rfl
    | tryAcquire =>
      simp only [Semaphore.enter] at hc
      split at hc <;> cases hc
    | wait =>
      simp only [Semaphore.enter, Semaphore.waitSection] at hc
      split at hc <;> cases hc
    | waitForUser key =>
      simp only [Semaphore.enter] at hc
      split at hc
      · cases hc
      · split at hc <;> cases hc
    | admitSlot key => cases hc
  | quota q => cases q <;> cases ha
  | _ => cases ha

/-- The cap has been `b` since the user was idle. -/
structure World.Within (k : UserKey) (b : Int) (w : World) : Prop where
  tallied : w.Tallied
  cap : w.sem.maxPerUser = b
  captured : ∀ p ∈ w.procs, ∀ cap, p.captured = some (k, cap) → cap = b
  bound : total (Proc.has .capped k) w.procs + w.sem.handed k ≤ b

theorem within_step (hpos : 0 < b) (hw : w.Within k b) (hP : CapStays b w l)
    (h : step w l = some w') : w'.Within k b := by
  have htallied := tallied_step hw.tallied hP.1 h
  have hbal := hw.tallied.balanced
  have hcaptured := forall_procs_step (I := fun p => ∀ cap, p.captured = some (k, cap) → cap = b)
    (fun _ _ _ hc => by cases hc)
    (fun hp ha _ _ hc => (captured_act (hw.tallied.single.procs _ hp) ha hc).trans hw.cap)
    hw.captured h
  suffices hs : w'.sem.maxPerUser = b ∧
      total (Proc.has .capped k) w'.procs + w'.sem.handed k ≤ b from
    ⟨htallied, hs.1, hcaptured, hs.2⟩
  cases l with
  | call c =>
    cases h
    refine ⟨hw.cap, ?_⟩
    rw [total_has_call]
    exact hw.bound
  | act i a =>
    obtain ⟨p, p', rest, hp, hperm, hperm', ha, hsettled⟩ := balanced_act hbal h
    have hmem := List.mem_of_getElem? hp
    have hu := (acts_act ha).users (hbal.accounts.perm hperm) (hw.tallied.named p hmem)
    have hcap : w'.sem.maxPerUser = w.sem.maxPerUser :=
      congrArg (fun c => c.2.2.2.1) hsettled.config
    refine ⟨hcap.trans hw.cap, ?_⟩
    have hb := hw.bound
    have hs := hw.tallied.tallies
    have ht := htallied.tallies
    rw [held_of_perm hperm] at hs
    rw [held_of_perm hperm'] at ht
    rw [total_perm _ hperm, total_cons] at hb
    rw [total_perm _ hperm', total_cons]
    have hrest := total_nonneg (Proc.has .resumed k) rest
    have hstep := hu.within (k := k) (d := total (Proc.has .capped k) rest) (by omega)
      hbal.accounts.ok.cap hw.cap hpos (hw.captured p hmem) hs ht (by omega)
    omega
  | setCaps maxConcurrent maxQueue =>
    cases h
    have hu := sameUsers_setCaps maxConcurrent maxQueue hbal
    refine ⟨hu.cap.trans hw.cap, ?_⟩
    rw [hu.handed]
    exact hw.bound
  | withPerUserCap n order =>
    obtain rfl : n = b := hP.2 n order rfl
    simp only [step] at h
    split at h
    · cases h
      obtain ⟨woken, hf⟩ := Semaphore.withPerUserCap_frees hbal.accounts.ok.nodup_cap n order
      have hheld : total (Proc.has .capped k) w.procs ≤ w.held k := by
        have := total_nonneg (Proc.has .resumed k) w.procs
        simp only [World.held]
        omega
      refine ⟨?_, @wakeAll_within { w.sem with maxPerUser := n } _ _ _ _ order hheld
        hbal.accounts.ok.nodup_cap hbal.accounts.ok.cap rfl hpos hw.tallied.tallies hw.bound⟩
      rw [hf.frame]
    · cases h
  | withQueuedPerUserCap n | withUserQuotaStore qs =>
    cases h
    exact ⟨hw.cap, hw.bound⟩

/-- Nobody of an idle user is counted, and nobody holds a cap for it. -/
theorem World.Tallied.within (hw : w.Tallied) (hpos : 0 < b) (hcap : w.sem.maxPerUser = b)
    (hidle : ∀ p ∈ w.procs, p.concerns k = false) : w.Within k b := by
  have hzero : w.procs.countP (Proc.counted w.sem k) = 0 := by
    refine List.countP_eq_zero.mpr fun p hp => ?_
    have hp := hidle p hp
    cases p with
    | userWaiting r x =>
      have hk : r.key ≠ k := by simpa [Proc.concerns] using hp
      simp [Proc.counted, hk]
    | _ =>
      first | (simp [Proc.counted, Proc.account?]; done) | (simpa [Proc.counted, Proc.concerns] using hp)
  have heq := hw.counted_eq k
  refine ⟨hw, hcap, fun p hp cap hc => ?_, ?_⟩
  · have hp' := hidle p hp
    have hhonest := hw.honest p hp
    cases p with
    | acquireTake key qs cap => exact hhonest.elim
    | reserveTake key cap | admitUser r cap => cases hc; simp [Proc.concerns] at hp'
    | _ => cases hc
  · have := total_nonneg (Proc.has .resumed k) w.procs
    simp only [World.held] at heq
    omega

/-- In single-replica mode, under any interleaving and any reloads of the cap: the count of
a user is the number of its live requests that were counted when they were taken, never
below zero and absent once they have all ended; and while the cap has been `b` since the
user was idle, it is at most `b` when no `WaitForUser` holds a count. -/
theorem user_counts_of_run {maxConcurrent maxQueue timeout : Int}
    (h : Run step UserCalls (World.init maxConcurrent maxQueue timeout) w) (k : UserKey) :
    w.sem.perUser k = tally (w.procs.countP (Proc.counted w.sem k)) ∧
    0 ≤ count w.sem.perUser k ∧
    ((∀ p ∈ w.procs, p.counted w.sem k = false) → w.sem.perUser k = none) ∧
    ∀ b w', 0 < b → w.sem.maxPerUser = b → (∀ p ∈ w.procs, p.concerns k = false) →
      Run step (CapStays b) w w' → (∀ p ∈ w'.procs, p.has .resumed k = 0) →
      count w'.sem.perUser k ≤ b := by
  have hw : w.Tallied :=
    h.invariant (fun _ _ _ hw hP hs => tallied_step hw hP hs) (tallied_init _ _ _)
  have hk : w.sem.perUser k = tally (w.procs.countP (Proc.counted w.sem k)) := by
    rw [hw.counted_eq]
    exact (hw.tallies k).2
  refine ⟨hk, ?_, fun hnone => ?_, fun b w' hpos hcap hidle hrun hresumed => ?_⟩
  · rw [count_eq_of_tally hk (Int.natCast_nonneg _)]
    exact Int.natCast_nonneg _
  · have hzero : w.procs.countP (Proc.counted w.sem k) = 0 :=
      List.countP_eq_zero.mpr fun p hp => by simp [hnone p hp]
    rw [hk, hzero]
    rfl
  · have hwithin : w'.Within k b :=
      hrun.invariant (fun _ _ _ hw hP hs => within_step hpos hw hP hs)
        (hw.within hpos hcap hidle)
    have hzero : total (Proc.has .resumed k) w'.procs = 0 := by
      rw [total, List.map_congr_left hresumed]
      simp
    rw [hwithin.tallied.tallies.count, World.held, hzero]
    have := hwithin.bound
    omega

/-- From the reload of the cap on: the second run waits, and the count is one. -/
theorem user_counts_of_second_run :
    ∃ w w', Run step UserCalls (World.init 2 2 0) w ∧ Run step (CapStays 1) w w' ∧
      w'.sem.perUser ⟨"", "alice"⟩ =
        tally (w'.procs.countP (Proc.counted w'.sem ⟨"", "alice"⟩)) ∧
      w'.sem.perUser ⟨"", "alice"⟩ = some 1 ∧ count w'.sem.perUser ⟨"", "alice"⟩ ≤ 1 := by
  let labels := capReadTrace.tail ++ [Label.act 1 .proceed]
  have hcap : ∀ a ∈ labels, ∀ u, CapStays 1 u a := by
    simp [labels, capReadTrace, CapStays, UserCalls]
  have hfirst : Run step UserCalls (World.init 2 2 0)
      ⟨{ Semaphore.new 2 2 0 with maxPerUser := 1 }, []⟩ :=
    .tail (a := .withPerUserCap 1 []) (.refl _) (by simp [UserCalls]) rfl
  obtain ⟨w', hrun, hone, hresumed⟩ := exists_run_of_exec step
    ⟨{ Semaphore.new 2 2 0 with maxPerUser := 1 }, []⟩ labels
    (p := fun w => w.sem.perUser ⟨"", "alice"⟩ = some 1 ∧
      ∀ p ∈ w.procs, p.has .resumed ⟨"", "alice"⟩ = 0) hcap (by decide +kernel)
  have hall := hfirst.trans (hrun.mono fun _ _ hP => hP.1)
  refine ⟨_, w', hfirst, hrun, (user_counts_of_run hall _).1, hone, ?_⟩
  exact (user_counts_of_run hfirst _).2.2.2 1 w' (by decide) rfl (fun _ hp => by cases hp) hrun
    hresumed

end Loomcycle.Concurrency
