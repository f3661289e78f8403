import Loomcycle.Concurrency.SemaphoreSteps

/-! # What a step does to the users' counts

Of all a step can do, five things matter to the per-user counts: it takes a count under
the cap it read, it takes one whatever the cap, it gives one back and moves the user's
waiting runs on, a run joins its user's FIFO, or a run leaves it. Everything else leaves
the counts alone. A count handed to a waiting run is on its way in the run's channel. -/

namespace Loomcycle.Concurrency
/-- The account of a call that is past the point where it counts itself. -/
def Proc.account? : Proc → Option Account
  | .reserved acct => some acct
  | .admitGlobal _ acct _ _ => some acct
  | .waiting _ acct _ _ => some acct
  | .holding acct _ => some acct
  | .lent acct => some acct
  | .reclaiming _ acct => some acct
  | .endingLent acct => some acct
  | _ => none

/-- It holds one count of the user `k` in this process, taken in the given way. -/
def Account.has (how : Counting) (k : UserKey) (acct : Account) : Nat :=
  if acct.key = k ∧ k.user ≠ "" ∧ acct.qs = false ∧ acct.counting = how then 1 else 0

def Proc.has (how : Counting) (k : UserKey) (p : Proc) : Nat :=
  match p.account? with
  | some acct => acct.has how k
  | none => 0

/-- The cap a call read and will count itself under. -/
def Proc.captured : Proc → Option (UserKey × Int)
  | .acquireTake key _ cap => some (key, cap)
  | .reserveTake key cap => some (key, cap)
  | .admitUser r cap => some (r.key, cap)
  | _ => none

/-- The counts of the user `k` that are in the channel of a run waiting on the cap. -/
def Semaphore.handed (s : Semaphore) (k : UserKey) : Nat :=
  s.tokens.countP fun w => w.forCap && decide (w.key = k)

/-- The users' counts are the same, and who waits on them. -/
structure SameUsers (s t : Semaphore) : Prop where
  perUser : t.perUser = s.perUser
  userWait : t.userWait = s.userWait
  handed : ∀ k, t.handed k = s.handed k
  made : t.perUserMade = s.perUserMade
  cap : t.maxPerUser = s.maxPerUser

variable {s t u : Semaphore} {p p' : Proc} {ps : List Proc} {w : SemWaiter}

theorem SameUsers.refl (s : Semaphore) : SameUsers s s :=
  ⟨rfl, rfl, fun _ => rfl, rfl, rfl⟩

theorem SameUsers.trans (h : SameUsers s t) (h' : SameUsers t u) : SameUsers s u :=
  ⟨h'.perUser.trans h.perUser, h'.userWait.trans h.userWait,
    fun k => (h'.handed k).trans (h.handed k), h'.made.trans h.made, h'.cap.trans h.cap⟩

/-- Handing slots on hands no user's count. -/
theorem sameUsers_wakeNextLocked (h : Accounts s ps) : SameUsers s s.wakeNextLocked := by
  obtain ⟨woken, hh⟩ := Semaphore.wakeNextLocked_hands h.ok.nodup_slot
  have hslot : ∀ x ∈ woken, x.forCap = false := fun x hx =>
    h.ok.slot x (hh.perm.mem_iff.mpr (List.mem_append_left _ hx))
  refine ⟨by rw [hh.frame], by rw [hh.frame], fun k => ?_, by rw [hh.frame], by rw [hh.frame]⟩
  have ht : s.wakeNextLocked.tokens = s.tokens ++ woken := by rw [hh.frame]
  have hzero : woken.countP (fun w => w.forCap && decide (w.key = k)) = 0 :=
    List.countP_eq_zero.mpr fun x hx => by simp [hslot x hx]
  rw [Semaphore.handed, ht, List.countP_append, hzero]
  rfl

theorem handed_take (hw : w ∈ s.tokens) (k : UserKey) :
    s.handed k = (s.take w).handed k + if w.forCap = true ∧ w.key = k then 1 else 0 := by
  have hc := (List.perm_cons_erase hw).countP_eq fun w => w.forCap && decide (w.key = k)
  rw [List.countP_cons] at hc
  simpa [Semaphore.handed, Semaphore.take] using hc

theorem sameUsers_take (hw : w ∈ s.tokens) (hcap : w.forCap = false) : SameUsers s (s.take w) :=
  ⟨rfl, rfl, fun k => by rw [handed_take hw k]; simp [hcap], rfl, rfl⟩

/-- The things a step can do, `p` becoming `p'`. -/
inductive UserStep (s : Semaphore) (p : Proc) (t : Semaphore) (p' : Proc) : Prop
  /-- a count is at most received by the run it was handed to -/
  | same (perUser : t.perUser = s.perUser) (userWait : t.userWait = s.userWait)
    (made : s.perUserMade = true → t.perUserMade = true)
    (capped : ∀ k, p'.has .capped k + t.handed k = p.has .capped k + s.handed k)
    (resumed : ∀ k, p'.has .resumed k = p.has .resumed k)
  | counts (key : UserKey) (cap : Int) (captured : p.captured = some (key, cap))
    (room : count s.perUser key < cap)
    (perUser : t.perUser = increment s.perUser key) (userWait : t.userWait = s.userWait)
    (made : t.perUserMade = true) (handed : ∀ k, t.handed k = s.handed k)
    (capped : ∀ k, p'.has .capped k = p.has .capped k + if k = key then 1 else 0)
    (resumed : ∀ k, p'.has .resumed k = p.has .resumed k)
  | resumes (key : UserKey)
    (perUser : t.perUser = increment s.perUser key) (userWait : t.userWait = s.userWait)
    (made : t.perUserMade = true) (handed : ∀ k, t.handed k = s.handed k)
    (capped : ∀ k, p'.has .capped k = p.has .capped k)
    (resumed : ∀ k, p'.has .resumed k = p.has .resumed k + if k = key then 1 else 0)
  /-- `s₀` is the state in which `decrementPerUser` is called -/
  | gives (key : UserKey) (s₀ : Semaphore) (user : key.user ≠ "")
    (perUser : s₀.perUser = s.perUser) (userWait : s₀.userWait = s.userWait)
    (made : s₀.perUserMade = s.perUserMade) (cap : s₀.maxPerUser = s.maxPerUser)
    (nodup : (s₀.userWaiters ++ s₀.tokens).Nodup) (after : SameUsers (s₀.decrementPerUser key) t)
    (loses : (∀ acct, p.account? = some acct → acct.key.user ≠ "" → acct.counting ≠ .uncounted) →
      ∀ k, p'.has .capped k + p'.has .resumed k + s₀.handed k + (if k = key then 1 else 0) =
        p.has .capped k + p.has .resumed k + s.handed k)
    (fewer : ∀ k, p'.has .capped k + s₀.handed k ≤ p.has .capped k + s.handed k)
  | queues (r : AdmitRequest) (cap : Int) (w : SemWaiter) (source : p = .admitUser r cap)
    (target : p' = .userWaiting r w) (full : cap ≤ count s.perUser r.key)
    (perUser : t.perUser = s.perUser)
    (userWait : t.userWait = s.userWait.put r.key (s.userWait.get r.key ++ [w]))
    (made : t.perUserMade = true) (handed : ∀ k, t.handed k = s.handed k)
  | withdraws (r : AdmitRequest) (w : SemWaiter) (source : p = .userWaiting r w)
    (target : p'.account? = none) (perUser : t.perUser = s.perUser)
    (userWait : t.userWait = s.userWait.put r.key ((s.userWait.get r.key).erase w))
    (made : t.perUserMade = s.perUserMade) (handed : ∀ k, t.handed k = s.handed k)

variable {k key : UserKey} {how : Counting} {acct : Account}

theorem Proc.has_of_none (h : p.account? = none) : p.has how k = 0 := by
  simp [Proc.has, h]

theorem Proc.has_of_some (h : p.account? = some acct) : p.has how k = acct.has how k := by
  simp [Proc.has, h]

/-- The account names no user, or the cluster counted it. -/
theorem has_of_elsewhere (h : acct.key.user = "" ∨ acct.qs = true) : acct.has how k = 0 := by
  rw [Account.has, if_neg]
  rintro ⟨rfl, huser, hqs, -⟩
  rcases h with h | h
  · exact huser h
  · rw [hqs] at h
    cases h

/-- Counts and account stay as they are. -/
theorem userStep_same (hu : SameUsers s t) (hp : p'.account? = p.account?) :
    UserStep s p t p' := by
  have hh : ∀ how k, p'.has how k = p.has how k := fun how k => by simp [Proc.has, hp]
  exact .same hu.perUser hu.userWait (fun hm => hu.made.trans hm)
    (fun k => by rw [hh, hu.handed]) (fun k => hh _ k)

/-- A call that has counted nothing yet goes on, or is over. -/
theorem userStep_uncounted (hperUser : t.perUser = s.perUser) (hwait : t.userWait = s.userWait)
    (htok : t.tokens = s.tokens) (hmade : s.perUserMade = true → t.perUserMade = true)
    (hp : p.account? = none) (hp' : ∀ how k, how ≠ .uncounted → p'.has how k = 0) :
    UserStep s p t p' := by
  refine .same hperUser hwait hmade (fun k => ?_) (fun k => ?_)
  · rw [hp' _ k (by decide), Proc.has_of_none hp, Semaphore.handed, htok]
    rfl
  · rw [hp' _ k (by decide), Proc.has_of_none hp]

/-- A call gives back what its account says. -/
theorem userStep_giveBack (hacc : Accounts u ps) (hu : SameUsers s u)
    (hafter : SameUsers (u.giveBackUserLocked acct) t) (hp : p.account? = some acct)
    (hp' : p'.account? = none) : UserStep s p t p' := by
  have hnone : (acct.key.user = "" ∨ acct.qs = true) → ∀ how k, p.has how k = 0 :=
    fun hor how k => (Proc.has_of_some hp).trans (has_of_elsewhere hor)
  have hstay : ∀ {v : Semaphore}, SameUsers u v → SameUsers v t →
      (acct.key.user = "" ∨ acct.qs = true) → UserStep s p t p' := fun hv ht hor => by
    have hall := hu.trans (hv.trans ht)
    refine .same hall.perUser hall.userWait (fun hm => hall.made.trans hm) (fun k => ?_)
      (fun k => ?_)
    · rw [Proc.has_of_none hp', hnone hor, hall.handed]
    · rw [Proc.has_of_none hp', hnone hor]
  unfold Semaphore.giveBackUserLocked at hafter
  split at hafter
  · next h => exact hstay (.refl u) hafter (.inl h)
  next huser =>
  split at hafter
  · next h =>
    exact hstay (v := { u with released := u.released ++ [acct.key] })
      ⟨rfl, rfl, fun _ => rfl, rfl, rfl⟩ hafter (.inr h)
  next hqs =>
  refine .gives acct.key u huser hu.perUser hu.userWait hu.made hu.cap hacc.ok.nodup_cap
    hafter (fun hcount k => ?_) (fun k => ?_)
  · have hc := hcount acct hp huser
    rw [Proc.has_of_none hp', Proc.has_of_none hp', Proc.has_of_some hp,
      Proc.has_of_some hp, hu.handed]
    have hqs : acct.qs = false := by simpa using hqs
    by_cases hk : k = acct.key
    · subst hk
      cases hcnt : acct.counting <;> simp [Account.has, huser, hqs, hcnt] at hc ⊢ <;> omega
    · simp [Account.has, hk, Ne.symm hk]
  · rw [Proc.has_of_none hp', hu.handed]
    omega

theorem has_capped (huser : key.user ≠ "") :
    Account.has .capped k ⟨key, false, .capped⟩ = if k = key then 1 else 0 := by
  unfold Account.has
  by_cases hk : k = key
  · subst hk
    simp [huser]
  · simp [hk, Ne.symm hk]

theorem has_resumed_of_capped (key k : UserKey) (qs : Bool) :
    Account.has .resumed k ⟨key, qs, .capped⟩ = 0 := by
  simp [Account.has]

/-- A call counts itself under the cap it read. -/
theorem userStep_counts {cap : Int} (huser : key.user ≠ "") (hc : p.captured = some (key, cap))
    (hroom : count s.perUser key < cap) (hperUser : t.perUser = increment s.perUser key)
    (hwait : t.userWait = s.userWait) (hmade : t.perUserMade = true) (htok : t.tokens = s.tokens)
    (hp' : p'.account? = some ⟨key, false, .capped⟩) : UserStep s p t p' := by
  have hp : p.account? = none := by cases p <;> first | rfl | cases hc
  refine .counts key cap hc hroom hperUser hwait hmade (fun k => ?_) (fun k => ?_) (fun k => ?_)
  · rw [Semaphore.handed, htok]
    rfl
  · rw [Proc.has_of_some hp', Proc.has_of_none hp, has_capped huser, Nat.zero_add]
  · rw [Proc.has_of_some hp', Proc.has_of_none hp, has_resumed_of_capped]

/-- What the call promises about its user before it counts itself. -/
def Proc.Named : Proc → Prop
  | .reserveTake key _ => key.user ≠ ""
  | .reserveAsk key _ => key.user ≠ ""
  | .waitTake acct countHere =>
    if countHere then acct.key.user ≠ "" ∧ acct.qs = false ∧ acct.counting = .resumed
    else acct.qs = true ∨ acct.key.user = ""
  | _ => True

theorem Goes.named {qs : Bool} (h : Goes qs p p') (hp : p.Named) : p'.Named := by
  cases h with
  | reserveAsk _ _ huser | reserveTake _ huser => exact huser
  | waitUncounted | countFailed => exact .inr rfl
  | waitCounted huser => exact ⟨huser, rfl, rfl⟩
  | countAnswered => exact .inl rfl
  | _ => trivial

end Loomcycle.Concurrency
