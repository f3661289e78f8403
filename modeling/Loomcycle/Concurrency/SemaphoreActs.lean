import Loomcycle.Concurrency.UserSteps

/-! # What each section does

One lemma for each mutex-held section: where it takes the call, that counters, queues and
calls still agree afterwards with no waiter left beside a free slot, and what becomes of
the users' counts. -/

namespace Loomcycle.Concurrency
open Lib

/-- A step of `p` from `s` leads to `t` and `p'`. -/
structure Acts (s : Semaphore) (p : Proc) (t : Semaphore) (p' : Proc) : Prop where
  goes : Goes s.quotaStore p p'
  settled {rest : List Proc} (h : Accounts s (p :: rest)) (hi : s.Idle) :
    Settled s p t (p' :: rest)
  users {rest : List Proc} (h : Accounts s (p :: rest)) (hn : p.Named) : UserStep s p t p'

variable {s t : Semaphore} {p p' : Proc} {w : SemWaiter} {acct : Account} {r : AdmitRequest}
  {e : AdmitError}

/-- A call that has counted nothing is refused. -/
theorem acts_refuse (hg : p.refusable e) (hp : p.Bare) (ha : p.account? = none)
    (a : Agrees s t) (hperUser : t.perUser = s.perUser)
    (hmade : s.perUserMade = true → t.perUserMade = true) :
    Acts s p (t.refuse e).1 (t.refuse e).2 where
  goes := .refused hg
  settled h hi := settled_refuse e h hi hp a
  users _ _ := userStep_uncounted hperUser (congrArg Waits.userWait a.waits)
    (congrArg Waits.tokens a.waits) hmade ha fun _ _ _ => rfl

/-- A call that has counted nothing goes on to its next section. -/
theorem acts_pass (hg : Goes s.quotaStore p p') (hp : p.Bare) (hp' : p'.Bare)
    (hs : p.Sound → p'.Sound) (ha : p.account? = none)
    (hz : ∀ acct, p'.account? = some acct → acct.key.user = "" ∨ acct.qs = true) :
    Acts s p s p' where
  goes := hg
  settled h hi := settled_pass h hi hp hp' (hs (h.sound p List.mem_cons_self))
    ⟨rfl, rfl, rfl, rfl, rfl⟩
  users _ _ := by
    refine userStep_uncounted rfl rfl rfl id ha fun how k _ => ?_
    cases h : p'.account? with
    | none => exact Proc.has_of_none h
    | some acct => exact (Proc.has_of_some h).trans (has_of_elsewhere (hz acct h))

/-- A step that leaves the users' counts alone. -/
theorem acts_same (hg : Goes s.quotaStore p p')
    (hs : ∀ {rest}, Accounts s (p :: rest) → s.Idle → Settled s p t (p' :: rest))
    (hu : SameUsers s t) (ha : p'.account? = p.account?) : Acts s p t p' :=
  ⟨hg, hs, fun _ _ => userStep_same hu ha⟩

/-- `Wait` and `WaitForUser` touch no user's count here. -/
theorem waitSection_users (s : Semaphore) (acct : Account) :
    SameUsers s (s.waitSection acct).1 ∧ (s.waitSection acct).1.tokens = s.tokens ∧
      (s.waitSection acct).2.account? = some acct := by
  unfold Semaphore.waitSection
  split <;> exact ⟨⟨rfl, rfl, fun _ => rfl, rfl, rfl⟩, rfl, rfl⟩

theorem acts_enter (c : Call) : Acts s (.entering c) (s.enter c).1 (s.enter c).2 := by
  have hbare : (Proc.entering c).Bare := ⟨rfl, rfl, rfl, rfl⟩
  have hpass : ∀ {q : Proc}, Goes s.quotaStore (.entering c) q → q.Bare → q.Sound →
      (q.account? = none ∨ q.account? = some .none) → Acts s (.entering c) s q := by
    intro q hg hq hs ha
    refine acts_pass hg hbare hq (fun _ => hs) rfl fun acct h => ?_
    obtain ha | ha := ha <;> cases ha.symm.trans h
    exact .inl rfl
  cases c with
  | acquireForUser key =>
    simp only [Semaphore.enter]
    split
    · next h =>
      have hqs := (Bool.and_eq_true_iff.mp h).2
      exact hpass (.acquireAsk hqs) ⟨rfl, rfl, rfl, rfl⟩ trivial (.inl rfl)
    · exact hpass .acquireTake ⟨rfl, rfl, rfl, rfl⟩ trivial (.inl rfl)
  | reserveUser key =>
    simp only [Semaphore.enter]
    split
    · exact hpass .uncounted ⟨rfl, rfl, rfl, rfl⟩ trivial (.inl rfl)
    · next h =>
      obtain ⟨hcap, huser⟩ := user_of_countsUser h
      split
      · next hqs =>
        exact hpass (.reserveAsk hqs hcap huser) ⟨rfl, rfl, rfl, rfl⟩ trivial (.inl rfl)
      · exact hpass (.reserveTake hcap huser) ⟨rfl, rfl, rfl, rfl⟩ trivial (.inl rfl)
  | tryAcquire =>
    simp only [Semaphore.enter]
    split
    · next hact =>
      refine ⟨.tried, fun h hi => ?_, fun _ _ => userStep_uncounted rfl rfl rfl id rfl ?_⟩
      · exact settled_take h hi hact rfl rfl rfl rfl rfl (by simp [Proc.lends])
          (by simp [Proc.places])
      · exact fun _ _ _ => has_of_elsewhere (.inl rfl)
    · exact acts_refuse trivial hbare rfl ⟨rfl, rfl, rfl, rfl, rfl⟩ rfl id
  | wait =>
    obtain ⟨hu, htok, ha⟩ := waitSection_users s .none
    refine ⟨?_, fun h hi => settled_waitSection .none h hi hbare rfl, fun _ _ => ?_⟩
    · simp only [Semaphore.enter, Semaphore.waitSection]
      split
      · exact .waitHeld
      · exact .waitQueued
    · refine userStep_uncounted hu.perUser hu.userWait htok (fun hm => hu.made.trans hm) rfl ?_
      exact fun _ _ _ => (Proc.has_of_some ha).trans (has_of_elsewhere (.inl rfl))
  | waitForUser key =>
    simp only [Semaphore.enter]
    split
    · exact hpass .waitUncounted ⟨rfl, rfl, rfl, rfl⟩ trivial (.inl rfl)
    · next h =>
      split
      · next hqs => exact hpass (.countAsk hqs) ⟨rfl, rfl, rfl, rfl⟩ trivial (.inl rfl)
      · exact hpass (.waitCounted (user_of_countsUser h).2) ⟨rfl, rfl, rfl, rfl⟩ trivial (.inl rfl)
  | admitRun r =>
    simp only [Semaphore.enter]
    split
    · exact hpass .admitUncapped ⟨rfl, rfl, rfl, rfl⟩ (fun h => absurd h Bool.false_ne_true)
        (.inr rfl)
    · next h =>
      obtain ⟨hcap, huser⟩ := user_of_countsUser h
      split
      · next hqs => exact hpass (.admitAsk hqs huser) ⟨rfl, rfl, rfl, rfl⟩ huser (.inl rfl)
      · exact hpass (.admitUser hcap huser) ⟨rfl, rfl, rfl, rfl⟩ huser (.inl rfl)
  | admitSlot key =>
    exact hpass .admitSlot ⟨rfl, rfl, rfl, rfl⟩ (fun h => absurd h Bool.false_ne_true)
      (.inr rfl)

/-- The cap decides whether `AcquireForUser` is counted here, not where it goes. -/
theorem acts_acquireSection (key : UserKey) (qs : Bool) (cap : Int) :
    Acts s (.acquireTake key qs cap) (s.acquireSection key qs cap).1
      (s.acquireSection key qs cap).2 := by
  unfold Semaphore.acquireSection Semaphore.acquireCounted
  dsimp only
  generalize hhere : (Semaphore.countsUser cap key && !qs) = here
  obtain ⟨s', hs', a, hperUser, hmade⟩ : ∃ s' : Semaphore,
      (if here = true then { s with perUserMade := true } else s) = s' ∧ Agrees s s' ∧
        s'.perUser = s.perUser ∧ s'.perUserMade = (here || s.perUserMade) := by
    refine ⟨_, rfl, ?_⟩
    cases here <;> exact ⟨⟨rfl, rfl, rfl, rfl, rfl⟩, rfl, rfl⟩
  have hkept : s.perUserMade = true → s'.perUserMade = true := by
    intro hm
    rw [hmade, hm, Bool.or_true]
  rw [hs']
  split
  · exact acts_refuse trivial ⟨rfl, rfl, rfl, rfl⟩ rfl a hperUser hkept
  next hroom =>
  have husers : ∀ {t : Semaphore} {q : Proc},
      t.perUser = (if here = true then increment s'.perUser key else s'.perUser) →
      t.userWait = s'.userWait → t.tokens = s'.tokens → t.perUserMade = s'.perUserMade →
      q.account? = some ⟨key, qs, if Semaphore.countsUser cap key then .capped else .uncounted⟩ →
      UserStep s (.acquireTake key qs cap) t q := by
    intro t q h1 h2 h3 h4 hq
    have hwait : t.userWait = s.userWait := h2.trans (congrArg Waits.userWait a.waits)
    have htok : t.tokens = s.tokens := h3.trans (congrArg Waits.tokens a.waits)
    cases here with
    | true =>
      rw [Bool.and_eq_true, Bool.not_eq_true'] at hhere
      obtain ⟨hcounts, rfl⟩ := hhere
      obtain ⟨-, huser⟩ : 0 < cap ∧ key.user ≠ "" := by
        simpa [Semaphore.countsUser] using hcounts
      rw [hcounts] at hq
      refine userStep_counts huser rfl ?_ ?_ hwait (h4.trans hmade) htok hq
      · simpa [hperUser] using hroom
      · rw [h1, if_pos rfl, hperUser]
    | false =>
      -- the cap is off, the call names no user, or the cluster counted it
      refine userStep_uncounted (h1.trans hperUser) hwait htok (fun hm => ?_) rfl ?_
      · rw [h4, hkept hm]
      · intro how k hhow
        rw [Proc.has_of_some hq, Account.has, if_neg]
        rintro ⟨-, -, hqs, hcounting⟩
        have hqs : qs = false := hqs
        rw [hqs, Bool.not_false, Bool.and_true] at hhere
        simp only [hhere] at hcounting
        exact hhow hcounting.symm
  split
  · next hact =>
    refine ⟨.acquireHeld, fun h hi => a.settled ?_, fun _ _ => husers rfl rfl rfl rfl rfl⟩
    exact settled_take (a.accounts h) (a.idle hi) hact rfl rfl rfl rfl rfl
      (by simp [Proc.lends]) (by simp [Proc.places])
  next hact =>
  split
  · exact acts_refuse trivial ⟨rfl, rfl, rfl, rfl⟩ rfl
      ⟨a.waits, a.config, a.active, a.lent, a.queued⟩ hperUser hkept
  · next hfull =>
    refine ⟨.acquireQueued, fun h hi => a.settled ?_, fun _ _ => husers rfl rfl rfl rfl rfl⟩
    exact settled_join (a.accounts h) hact rfl rfl rfl rfl rfl rfl rfl rfl rfl
      (slotWaiters_push s' _) rfl rfl rfl (by simp [Proc.lends, Semaphore.make])
      (by simp [Proc.places]) (fun _ => .inr (by simp only [Semaphore.make]; omega))

theorem acts_reserveTake {key : UserKey} {cap : Int}
    (hr : s.proceed (.reserveTake key cap) = some (t, p')) :
    Acts s (.reserveTake key cap) t p' := by
  simp only [Semaphore.proceed] at hr
  split at hr
  · cases hr
    exact acts_refuse trivial ⟨rfl, rfl, rfl, rfl⟩ rfl ⟨rfl, rfl, rfl, rfl, rfl⟩ rfl fun _ => rfl
  · next hroom =>
    cases hr
    refine ⟨.reserved, fun h hi => ?_, fun _ huser => ?_⟩
    · exact settled_pass h hi ⟨rfl, rfl, rfl, rfl⟩ ⟨rfl, rfl, rfl, rfl⟩ trivial
        ⟨rfl, rfl, rfl, rfl, rfl⟩
    · exact userStep_counts huser rfl (by omega) rfl rfl rfl rfl rfl

/-- `WaitForUser` counts itself, whatever the cap. -/
theorem acts_waitTake {countHere : Bool}
    (hr : s.proceed (.waitTake acct countHere) = some (t, p')) :
    Acts s (.waitTake acct countHere) t p' := by
  have hgoes : ∀ s' : Semaphore,
      Goes s.quotaStore (.waitTake acct countHere) (s'.waitSection acct).2 := by
    intro s'
    unfold Semaphore.waitSection
    split
    · exact .waitTakeHeld
    · exact .waitTakeQueued
  cases countHere with
  | true =>
    obtain ⟨s', hs'⟩ : ∃ s' : Semaphore, s' = { s with
      perUserMade := true, perUser := increment s.perUser acct.key } := ⟨_, rfl⟩
    have a : Agrees s s' := by
      subst hs'
      exact ⟨rfl, rfl, rfl, rfl, rfl⟩
    obtain ⟨rfl, rfl⟩ : t = (s'.waitSection acct).1 ∧ p' = (s'.waitSection acct).2 := by
      subst hs'
      exact eq_of_some hr
    refine ⟨hgoes s', fun h hi => a.settled ?_, fun _ hacct => ?_⟩
    · exact settled_waitSection acct (a.accounts h) (a.idle hi) ⟨rfl, rfl, rfl, rfl⟩ rfl
    · obtain ⟨huser, hqs, hcounting⟩ := hacct
      obtain ⟨hu, -, hp'⟩ := waitSection_users s' acct
      subst hs'
      refine .resumes acct.key hu.perUser hu.userWait hu.made hu.handed (fun k => ?_) (fun k => ?_)
      · rw [Proc.has_of_some hp', Proc.has_of_none rfl]
        simp [Account.has, hcounting]
      · rw [Proc.has_of_some hp', Proc.has_of_none rfl]
        by_cases hk : k = acct.key
        · subst hk
          simp [Account.has, hcounting, huser, hqs]
        · simp [Account.has, hk, Ne.symm hk]
  | false =>
    obtain ⟨rfl, rfl⟩ := eq_of_some (x := s.waitSection acct) hr
    refine ⟨hgoes s, fun h hi => ?_, fun _ hacct => ?_⟩
    · exact settled_waitSection acct h hi ⟨rfl, rfl, rfl, rfl⟩ rfl
    · obtain ⟨hu, htok, hp'⟩ := waitSection_users s acct
      refine userStep_uncounted hu.perUser hu.userWait htok (fun hm => hu.made.trans hm) rfl ?_
      exact fun _ _ _ => (Proc.has_of_some hp').trans (has_of_elsewhere (Or.symm hacct))

theorem acts_admitUserSection (r : AdmitRequest) (cap : Int) :
    Acts s (.admitUser r cap) (s.admitUserSection r cap).1 (s.admitUserSection r cap).2 := by
  have hbare : (Proc.admitUser r cap).Bare := ⟨rfl, rfl, rfl, rfl⟩
  have a : Agrees s { s with perUserMade := true } := ⟨rfl, rfl, rfl, rfl, rfl⟩
  unfold Semaphore.admitUserSection
  dsimp only
  split
  · next hroom =>
    refine ⟨.userCounted, fun h hi => ?_, fun h _ => ?_⟩
    · exact settled_pass h hi hbare ⟨rfl, rfl, rfl, rfl⟩ (fun hs => by cases hs)
        ⟨rfl, rfl, rfl, rfl, rfl⟩
    · exact userStep_counts (h.sound _ List.mem_cons_self) rfl hroom rfl rfl rfl rfl rfl
  · next hfull =>
    split
    · exact acts_refuse trivial hbare rfl a rfl fun _ => rfl
    · split
      · exact acts_refuse trivial hbare rfl a rfl fun _ => rfl
      · next hroom =>
        refine ⟨.userWaits, fun h hi => a.settled ?_, fun _ _ => ?_⟩
        · exact settled_queueUser (a.accounts h) (a.idle hi) rfl rfl rfl hroom rfl
        · exact .queues r cap _ rfl rfl (by omega) rfl rfl rfl fun _ => rfl

theorem acts_admitPollSection (r : AdmitRequest) (cap : Int) :
    Acts s (.admitPoll r cap) (s.admitPollSection r cap).1 (s.admitPollSection r cap).2 := by
  have a : Agrees s s := ⟨rfl, rfl, rfl, rfl, rfl⟩
  unfold Semaphore.admitPollSection
  split
  · exact acts_refuse trivial ⟨rfl, rfl, rfl, rfl⟩ rfl a rfl id
  split
  · exact acts_refuse trivial ⟨rfl, rfl, rfl, rfl⟩ rfl a rfl id
  next hroom =>
  refine acts_same .polls (fun {rest} h hi => ?_) ⟨rfl, rfl, fun _ => rfl, rfl, rfl⟩ rfl
  have huser : r.key.user ≠ "" := h.sound _ List.mem_cons_self
  have hskip : Accounts { s with nextId := s.nextId + 1 } (.admitPoll r cap :: rest) :=
    ⟨h.ok.skip, h.sound, h.active, h.lent, h.queued⟩
  refine ⟨hskip.move rfl rfl huser rfl rfl rfl (by simp [Proc.places]), hi, rfl, ?_, ?_⟩
  · intro hlt
    exact absurd hlt (Int.lt_irrefl _)
  · intro _
    refine .inr ?_
    dsimp only
    omega

theorem acts_pollEndSection (r : AdmitRequest) (w : SemWaiter) (err : Option AdmitError) :
    Acts s (.pollEnd r w err) (s.pollEndSection r w err).1 (s.pollEndSection r w err).2 := by
  unfold Semaphore.pollEndSection
  cases err with
  | none =>
    refine ⟨.pollEnd, fun h hi => ?_, fun _ _ => userStep_uncounted rfl rfl rfl id rfl ?_⟩
    · have huser : r.key.user ≠ "" := h.sound _ List.mem_cons_self
      exact settled_still (h.move rfl rfl (fun _ => huser) rfl rfl rfl rfl) hi rfl rfl
        (Int.le_refl _)
    · exact fun _ _ _ => has_of_elsewhere (.inr rfl)
  | some e =>
    refine acts_same (.refused rfl) (fun h hi => ?_) ⟨rfl, rfl, fun _ => rfl, rfl, rfl⟩ rfl
    refine settled_still (h.move rfl rfl trivial rfl rfl rfl ?_) hi rfl rfl ?_
    · simp [Proc.places, Semaphore.refuse]
    · simp only [Semaphore.refuse]
      omega

/-- A run that kept a place goes into the queue with it; any other needs room there. -/
theorem acts_admitGlobalSection (key : UserKey) (acct : Account) (r : AdmitRequest)
    (holdsPlace : Bool) :
    Acts s (.admitGlobal key acct r holdsPlace) (s.admitGlobalSection key acct r holdsPlace).1
      (s.admitGlobalSection key acct r holdsPlace).2 := by
  have hbare : holdsPlace = false → (Proc.admitGlobal key acct r holdsPlace).Bare := by
    rintro rfl
    exact ⟨rfl, rfl, rfl, rfl⟩
  unfold Semaphore.admitGlobalSection
  split
  · next hact =>
    refine acts_same .globalHeld (fun h hi => ?_) ⟨rfl, rfl, fun _ => rfl, rfl, rfl⟩ rfl
    exact settled_take h hi hact rfl rfl rfl rfl rfl (by simp [Proc.lends])
      (by cases holdsPlace <;> simp [Proc.places])
  next hact =>
  split
  · next hfull =>
    have hplace : holdsPlace = false := by simpa using hfull.1
    refine ⟨.refused (.inl hplace), fun h hi => Settled.giveBackUserLocked ?_ acct,
      fun h _ => userStep_giveBack h (.refl s) (.refl _) rfl rfl⟩
    exact settled_refuse _ h hi (hbare hplace) ⟨rfl, rfl, rfl, rfl, rfl⟩
  · next hroom =>
    split
    · next huser =>
      refine ⟨.refused (.inr huser.1), fun h hi => ?_, fun _ _ => ?_⟩
      · have hacct : holdsPlace = true → acct.key.user ≠ "" := h.sound _ List.mem_cons_self
        have hplace : holdsPlace = false := by
          cases holdsPlace with
          | false => rfl
          | true => exact absurd huser.1 (hacct rfl)
        exact settled_refuse _ h hi (hbare hplace) ⟨rfl, rfl, rfl, rfl, rfl⟩
      · have hnone : ∀ how k, (Proc.admitGlobal key acct r holdsPlace).has how k = 0 :=
          fun how k => (Proc.has_of_some rfl).trans (has_of_elsewhere (.inl huser.1))
        exact .same rfl rfl id (fun k => by rw [hnone]; rfl) (fun k => (hnone _ k).symm)
    · refine acts_same .globalQueued (fun h hi => ?_) ⟨rfl, rfl, fun _ => rfl, rfl, rfl⟩ rfl
      refine settled_join h hact rfl rfl rfl rfl rfl rfl rfl rfl rfl (slotWaiters_push s _)
        rfl rfl rfl (by simp [Proc.lends, Semaphore.make])
        (by cases holdsPlace <;> simp [Proc.places]) fun _ => ?_
      cases holdsPlace with
      | true => exact .inl (by simp [Semaphore.make])
      | false =>
        simp only [Bool.not_false, true_and, not_or] at hroom
        exact .inr (by simp [Semaphore.make]; omega)

/-- A call that holds nothing but its count is over. -/
theorem acts_over (hg : Goes s.quotaStore p (.done .released)) (hp : p.Bare)
    (ha : p.account? = some acct) : Acts s p (s.giveBackUserLocked acct) (.done .released) where
  goes := hg
  settled h hi := by
    refine Settled.giveBackUserLocked ?_ acct
    exact settled_pass h hi hp ⟨rfl, rfl, rfl, rfl⟩ trivial ⟨rfl, rfl, rfl, rfl, rfl⟩
  users h _ := userStep_giveBack h (.refl s) (.refl _) ha rfl

theorem acts_proceed (hr : s.proceed p = some (t, p')) : Acts s p t p' := by
  cases p with
  | entering c =>
    obtain ⟨rfl, rfl⟩ := eq_of_some (x := s.enter c) hr
    exact acts_enter c
  | acquireTake key qs cap =>
    obtain ⟨rfl, rfl⟩ := eq_of_some (x := s.acquireSection key qs cap) hr
    exact acts_acquireSection key qs cap
  | reserveTake key cap => exact acts_reserveTake hr
  | waitTake acct countHere => exact acts_waitTake hr
  | admitPoll r cap =>
    obtain ⟨rfl, rfl⟩ := eq_of_some (x := s.admitPollSection r cap) hr
    exact acts_admitPollSection r cap
  | pollEnd r w err =>
    obtain ⟨rfl, rfl⟩ := eq_of_some (x := s.pollEndSection r w err) hr
    exact acts_pollEndSection r w err
  | admitUser r cap =>
    obtain ⟨rfl, rfl⟩ := eq_of_some (x := s.admitUserSection r cap) hr
    exact acts_admitUserSection r cap
  | admitGlobal key acct r holdsPlace =>
    obtain ⟨rfl, rfl⟩ := eq_of_some (x := s.admitGlobalSection key acct r holdsPlace) hr
    exact acts_admitGlobalSection key acct r holdsPlace
  | endingLent acct =>
    cases hr
    exact acts_over .endedLent ⟨rfl, rfl, rfl, rfl⟩ rfl
  | _ => cases hr

/-- A run that polls the quota store keeps its place, whatever becomes of the poll. -/
theorem acts_polled {cap : Int} (hg : Goes s.quotaStore (.polling r cap w) p')
    (hw : p'.waiter? = none) (hs : r.key.user ≠ "" → p'.Sound) (hh : p'.holds = 0)
    (hl : p'.lends = 0) (hp : p'.places = 1) (ha : p'.account? = none) :
    Acts s (.polling r cap w) s p' := by
  refine acts_same hg (fun h hi => ?_) (.refl s) ha
  have hsound := hs (h.sound _ List.mem_cons_self)
  exact settled_still (h.move rfl hw hsound rfl (by rw [hh]; rfl) (by rw [hl]; rfl)
    (by rw [hp]; rfl)) hi rfl rfl (Int.le_refl _)

/-- The quota store's answers change nothing here. -/
theorem acts_answer {q : QuotaAnswer} (hr : s.answer p q = some (t, p')) : Acts s p t p' := by
  have hrefused : ∀ e, p.refusable e → p.Bare → p.account? = none →
      Acts s p (s.refuse e).1 (s.refuse e).2 := fun e hg hp ha =>
    acts_refuse hg hp ha ⟨rfl, rfl, rfl, rfl, rfl⟩ rfl id
  have hshared : ∀ {key : UserKey} {how : Counting} (acct : Account),
      some (⟨key, true, how⟩ : Account) = some acct → acct.key.user = "" ∨ acct.qs = true := by
    intro key how acct h
    cases h
    exact .inr rfl
  cases p with
  | acquireAsk key cap =>
    have hbare : (Proc.acquireAsk key cap).Bare := ⟨rfl, rfl, rfl, rfl⟩
    cases q <;> cases hr
    · exact acts_pass .acquireAnswered hbare ⟨rfl, rfl, rfl, rfl⟩ id rfl nofun
    all_goals exact hrefused _ trivial hbare rfl
  | reserveAsk key cap =>
    have hbare : (Proc.reserveAsk key cap).Bare := ⟨rfl, rfl, rfl, rfl⟩
    cases q <;> cases hr
    · exact acts_pass .reserveAnswered hbare ⟨rfl, rfl, rfl, rfl⟩ id rfl hshared
    all_goals exact hrefused _ trivial hbare rfl
  | countAsk key =>
    cases q <;> cases hr
    · exact acts_pass .countAnswered ⟨rfl, rfl, rfl, rfl⟩ ⟨rfl, rfl, rfl, rfl⟩ id rfl nofun
    · exact acts_pass .countAnswered ⟨rfl, rfl, rfl, rfl⟩ ⟨rfl, rfl, rfl, rfl⟩ id rfl nofun
    · exact acts_pass .countFailed ⟨rfl, rfl, rfl, rfl⟩ ⟨rfl, rfl, rfl, rfl⟩ id rfl nofun
  | admitAsk r cap =>
    have hbare : (Proc.admitAsk r cap).Bare := ⟨rfl, rfl, rfl, rfl⟩
    cases q with
    | yes =>
      cases hr
      exact acts_pass .admitAnswered hbare ⟨rfl, rfl, rfl, rfl⟩ nofun rfl
        hshared
    | no =>
      simp only [Semaphore.answer] at hr
      split at hr <;> cases hr
      · exact hrefused _ trivial hbare rfl
      · exact acts_pass .admitPoll hbare ⟨rfl, rfl, rfl, rfl⟩ id rfl nofun
    | failed => cases hr; exact hrefused _ trivial hbare rfl
  | polling r cap w =>
    cases q <;> cases hr
    · exact acts_polled .polled rfl id rfl rfl rfl rfl
    all_goals exact acts_polled .polling rfl id rfl rfl rfl rfl
  | _ => cases hr

/-! ## Waits that end -/

/-- A blocked call received the slot it waited for. -/
theorem acts_woken {slot : Bool} (hg : Goes s.quotaStore p (.holding acct slot))
    (hw : p.waiter? = some w) (hs : p.Sound → w.forCap = false) (hh : p.holds = 0)
    (hl : p.lends = 0) (hp : p.places = 0) (ha : p.account? = some acct) (hmem : w ∈ s.tokens) :
    Acts s p (s.take w) (.holding acct slot) where
  goes := hg
  settled h hi := settled_woken h hi hw (hs (h.sound p List.mem_cons_self)) hh hl hp hmem
  users h _ := userStep_same (sameUsers_take hmem (hs (h.sound p List.mem_cons_self))) ha.symm

theorem acts_receive (hr : s.receive p = some (t, p')) : Acts s p t p' := by
  cases p with
  | userWaiting r w =>
    simp only [Semaphore.receive] at hr
    split at hr
    · next hmem =>
      cases hr
      refine ⟨.userWoken, fun h hi => ?_, fun h _ => ?_⟩
      all_goals obtain ⟨hcap, hkey, huser⟩ := h.sound _ List.mem_cons_self
      · refine settled_still (accounts_receive h rfl hmem rfl (fun _ => huser) ?_ rfl ?_ rfl) hi rfl
          rfl (Int.le_refl _)
        · simp [hcap, Proc.holds, Semaphore.take]
        · simp [hcap, Proc.places, Semaphore.take]
      · -- the count moves from the channel to the run
        refine .same rfl rfl id (fun k => ?_) (fun k => ?_)
        · rw [handed_take hmem k, Proc.has_of_some rfl, Proc.has_of_none rfl, has_capped huser]
          simp only [hcap, true_and, hkey, eq_comm]
          omega
        · rw [Proc.has_of_some rfl, Proc.has_of_none rfl, has_resumed_of_capped]
    · cases hr
  | waiting w acct kind slot =>
    simp only [Semaphore.receive] at hr
    split at hr
    · next hmem => cases hr; exact acts_woken .woken rfl id rfl rfl rfl rfl hmem
    · cases hr
  | reclaiming w acct =>
    simp only [Semaphore.receive] at hr
    split at hr
    · next hmem => cases hr; exact acts_woken .reclaimWoken rfl id rfl rfl rfl rfl hmem
    · cases hr
  | _ => cases hr

/-- A cancelled wait for a slot: the waiter is still queued, or the slot it was handed goes
to the next one. The panic arm is not reached. -/
theorem acts_cancelWaiter {kind : WaitKind} {slot : Bool} (he : kind = .acquire ∨ e.own = true) :
    Acts s (.waiting w acct kind slot) (s.cancelWaiter w acct) (.done (.refused e)) := by
  unfold Semaphore.cancelWaiter
  cases hr : s.removeWaiter w with
  | some u =>
    obtain ⟨hf, -⟩ := Semaphore.removeWaiter_some hr
    refine ⟨.refused he, fun h hi => Settled.giveBackUserLocked ?_ acct,
      fun h _ => userStep_giveBack (accounts_removed e h hr) ?_ (.refl _) rfl rfl⟩
    · refine settled_removed hi hr (accounts_removed e h hr) rfl rfl ?_
      dsimp only
      omega
    · rw [hf]
      exact ⟨rfl, rfl, fun _ => rfl, rfl, rfl⟩
  | none =>
    refine ⟨.refused he, fun h hi => ?_, fun h _ => ?_⟩
    all_goals
      have hcap : w.forCap = false := h.sound _ List.mem_cons_self
      have hmem := token_of_not_queued h rfl hcap hr
      have hacc := accounts_unwanted e h hmem
      simp only [hmem, if_true]
    · apply Settled.giveBackUserLocked
      apply Loose.wakeNextLocked
      refine ⟨hacc, rfl, ?_, fun _ => .inl (Int.le_refl _)⟩
      simp only [Semaphore.take]
      omega
    · refine userStep_giveBack hacc.wakeNextLocked.1 ?_ (.refl _) rfl rfl
      refine SameUsers.trans ?_ (sameUsers_wakeNextLocked hacc)
      exact ⟨rfl, rfl, (sameUsers_take hmem hcap).handed, rfl, rfl⟩

/-- A cancelled wait on the user's cap: the waiter is still in the user's FIFO, or the
count and the place it was handed go back. The receive never blocks. -/
theorem acts_cancelUserWaiter (he : e.own = true) :
    Acts s (.userWaiting r w) (s.cancelUserWaiter w r.key) (.done (.refused e)) := by
  unfold Semaphore.cancelUserWaiter
  split
  · next hmem =>
    refine ⟨.refused he, fun {rest} h hi => ?_, fun _ _ => ?_⟩
    · have hok : s.waits.Ok (w :: waitersOf rest) := h.ok
      have hlist := s.userWait.values_perm r.key
      refine settled_still ?_ hi rfl rfl ?_
      · refine h.change (hok.withdraw ?_ (fun _ hx => hx) ?_) trivial rfl rfl ?_
        · refine List.Perm.trans ?_ List.perm_middle
          refine List.Perm.append_left _ (hlist.trans ?_)
          rw [Multimap.values_put]
          exact (List.perm_cons_erase hmem).append_right _
        · intro k x hx
          rw [Multimap.get_put] at hx
          split at hx
          · next hk => exact hk ▸ List.mem_of_mem_erase hx
          · exact hx
        · simp [Proc.places, Proc.waiter?]
          omega
      · dsimp only
        omega
    · exact .withdraws r w rfl rfl rfl rfl rfl fun _ => rfl
  · next hw =>
    refine ⟨.refused he, fun h hi => ?_, fun h _ => ?_⟩
    all_goals
      have hmem := token_of_not_waiting h hw
      have hacc := accounts_unwantedCount e h hmem
      simp only [hmem, if_true]
    · rw [decrementPerUser_eq]
      apply Settled.giveBackUserLocked
      refine settled_still hacc hi rfl rfl ?_
      simp only [Semaphore.take]
      omega
    · obtain ⟨hcap, hkey, huser⟩ := h.sound _ List.mem_cons_self
      -- the count it was handed is the one it gives back
      have hhanded : ∀ k, s.handed k =
          ({ s.take w with queued := s.queued - 1 } : Semaphore).handed k +
            if k = r.key then 1 else 0 := fun k => by
        have htake := handed_take hmem k
        simp only [hcap, true_and, hkey, eq_comm] at htake
        exact htake
      refine .gives r.key { s.take w with queued := s.queued - 1 } huser rfl rfl rfl rfl
        hacc.ok.nodup_cap (.refl _) (fun _ k => ?_) (fun k => ?_)
      · rw [Proc.has_of_none rfl, Proc.has_of_none rfl, Proc.has_of_none rfl,
          Proc.has_of_none rfl, hhanded k]
        omega
      · rw [Proc.has_of_none rfl, Proc.has_of_none rfl, hhanded k]
        omega

/-- A `Reclaim` whose ctx ended: the slot stays lent, or it was handed over and is the
run's. The receive never blocks. -/
theorem acts_reclaimCancelled :
    Acts s (.reclaiming w acct) (s.reclaimCancelled w acct).1 (s.reclaimCancelled w acct).2 := by
  unfold Semaphore.reclaimCancelled
  cases hr : s.removeWaiter w with
  | some t =>
    obtain ⟨hf, -⟩ := Semaphore.removeWaiter_some hr
    refine acts_same .reclaimGivenUp (fun h hi => ?_) ?_ rfl
    · refine settled_removed hi hr (accounts_remove h rfl hr rfl trivial ?_ ?_ ?_ rfl) rfl rfl ?_
      · rw [hf]
        rfl
      · rw [hf]
        simp [Proc.lends]
      · rw [hf]
        simp [Proc.places]
      · dsimp only
        omega
    · rw [hf]
      exact ⟨rfl, rfl, fun _ => rfl, rfl, rfl⟩
  | none =>
    dsimp only
    split
    · next hmem => exact acts_woken .reclaimWoken rfl id rfl rfl rfl rfl hmem
    · next hmem =>
      have hmust : ∀ {rest}, ¬ Accounts s (.reclaiming w acct :: rest) := fun h =>
        hmem (token_of_not_queued h rfl (h.sound _ List.mem_cons_self) hr)
      exact ⟨.reclaimStuck, fun h _ => absurd h hmust, fun h _ => absurd h hmust⟩

theorem acts_cancel {why : CancelReason} (hr : s.cancel p why = some (t, p')) :
    Acts s p t p' := by
  cases p with
  | polling r cap w =>
    obtain ⟨e, he, heq⟩ := Option.map_eq_some_iff.mp hr
    cases heq
    exact acts_polled (.pollCancelled (own_of_admit_ended he)) rfl id rfl rfl rfl rfl
  | userWaiting r w =>
    obtain ⟨e, he, heq⟩ := Option.map_eq_some_iff.mp hr
    cases heq
    exact acts_cancelUserWaiter (own_of_admit_ended he)
  | waiting w acct kind slot =>
    obtain ⟨e, he, heq⟩ := Option.map_eq_some_iff.mp hr
    cases heq
    exact acts_cancelWaiter (own_of_ended he)
  | reclaiming w acct =>
    cases why with
    | ctx =>
      obtain ⟨rfl, rfl⟩ := eq_of_some (x := s.reclaimCancelled w acct) hr
      exact acts_reclaimCancelled
    | _ => cases hr
  | _ => cases hr

/-! ## Sections that give a slot back -/

theorem acts_release (hr : s.release p = some (t, p')) : Acts s p t p' := by
  cases p with
  | reserved acct =>
    cases hr
    exact acts_over .unreserved ⟨rfl, rfl, rfl, rfl⟩ rfl
  | holding acct slot =>
    cases hr
    refine ⟨.ended, fun {rest} h _ => ?_, fun {rest} h _ => ?_⟩
    all_goals
      have hacc : Accounts { s with active := s.active - 1 } (.done .released :: rest) :=
        h.move rfl rfl trivial rfl (by simp [Proc.holds]) rfl rfl
    · have hl : Loose s (.holding acct slot) { s with active := s.active - 1 }
          (.done .released :: rest) := by
        refine ⟨hacc, rfl, ?_, fun _ => .inl (Int.le_refl _)⟩
        dsimp only
        omega
      exact (hl.giveBackUserLocked acct).wakeNextLocked
    · exact userStep_giveBack hacc ⟨rfl, rfl, fun _ => rfl, rfl, rfl⟩
        (sameUsers_wakeNextLocked (hacc.giveBackUserLocked acct).1) rfl rfl
  | lent acct =>
    cases hr
    refine acts_same .ending (fun h hi => ?_) ⟨rfl, rfl, fun _ => rfl, rfl, rfl⟩ rfl
    refine settled_still (h.move rfl rfl trivial rfl rfl ?_ rfl) hi rfl rfl ?_
    · simp [Proc.lends]
    · dsimp only
      omega
  | _ => cases hr

theorem acts_lendSection :
    Acts s (.holding acct true) (s.lendSection acct).1 (s.lendSection acct).2 := by
  unfold Semaphore.lendSection
  split
  · exact acts_same .unlent (fun h hi => settled_still h hi rfl rfl (Int.le_refl _)) (.refl s) rfl
  next hroom =>
  refine ⟨.lends, fun {rest} h _ => ?_, fun {rest} h _ => ?_⟩
  all_goals
    have hacc : Accounts { s with lent := s.lent + 1, active := s.active - 1 }
        (.lent acct :: rest) :=
      h.move rfl rfl trivial rfl (by simp [Proc.holds]) (by simp [Proc.lends]) rfl
  · refine Loose.wakeNextLocked ⟨hacc, rfl, ?_, fun _ => ?_⟩
    all_goals
      dsimp only
      omega
  · refine userStep_same (SameUsers.trans ?_ (sameUsers_wakeNextLocked hacc)) rfl
    exact ⟨rfl, rfl, fun _ => rfl, rfl, rfl⟩

theorem acts_tryReclaimSection :
    Acts s (.lent acct) (s.tryReclaimSection acct).1 (s.tryReclaimSection acct).2 := by
  unfold Semaphore.tryReclaimSection
  split
  · exact acts_same .stillLent (fun h hi => settled_still h hi rfl rfl (Int.le_refl _)) (.refl s)
      rfl
  · refine acts_same .reclaimed (fun h hi => ?_) ⟨rfl, rfl, fun _ => rfl, rfl, rfl⟩ rfl
    exact settled_take h hi (by omega) rfl rfl rfl rfl rfl (by simp [Proc.lends])
      (by simp [Proc.places])

theorem acts_reclaimSection :
    Acts s (.lent acct) (s.reclaimSection acct).1 (s.reclaimSection acct).2 := by
  unfold Semaphore.reclaimSection
  split
  · next hact =>
    refine acts_same .reclaimed (fun h hi => ?_) ⟨rfl, rfl, fun _ => rfl, rfl, rfl⟩ rfl
    exact settled_take h hi hact rfl rfl rfl rfl rfl (by simp [Proc.lends]) (by simp [Proc.places])
  · next hact =>
    refine acts_same .reclaims (fun h _ => ?_) ⟨rfl, rfl, fun _ => rfl, rfl, rfl⟩ rfl
    exact settled_join h hact rfl rfl rfl rfl rfl rfl rfl rfl rfl (slotWaiters_admitted s _)
      rfl rfl rfl (by simp [Proc.lends]) (by simp [Proc.places])
      (fun _ => .inl (by dsimp only; omega))

/-- One step of one call. -/
theorem acts_act {a : Action} (hr : s.act p a = some (t, p')) : Acts s p t p' := by
  cases a with
  | proceed => exact acts_proceed hr
  | quota q => exact acts_answer hr
  | receive => exact acts_receive hr
  | cancel why => exact acts_cancel hr
  | release => exact acts_release hr
  | lend | tryReclaim | reclaim =>
    simp only [Semaphore.act] at hr
    split at hr
    · obtain ⟨rfl, rfl⟩ := eq_of_some hr
      first
        | exact acts_lendSection
        | exact acts_tryReclaimSection
        | exact acts_reclaimSection
    · cases hr

end Loomcycle.Concurrency
