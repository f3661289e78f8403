import Loomcycle.OAuth.Calls

/-! The right to create a code's sign-in and the right to issue a family's next refresh token. Each
is with one row or one request at a time, and every call passes it on or drops it. -/

namespace Loomcycle.OAuth

open Lib.Partial Lib.Pool

variable {cfg : Config} {now : Instant} {ok : Bool} {id : String} {st st' : Store}
  {p p' : Phase} {requests : List Phase} {i : Nat}

/-! ## Who has the right to issue, and who to create -/

/-- Who can put an unused refresh token into the family: a token that can be used, or a request. -/
def issuers (st : Store) (requests : List Phase) (family : String) : Set (String ⊕ Nat)
  | .inl hash => ∃ r, st.refresh hash = some r ∧ r.usedAt = none ∧ r.family = family
  | .inr i => ∃ p, requests[i]? = some p ∧ p.issues = some family

variable {family code : String} {created : List (String × String)}

theorem issuers_sub
    (hrefresh : ∀ hash r, st'.refresh hash = some r → r.usedAt = none → st.refresh hash = some r)
    (hi : requests[i]? = some p) (hissues : p'.issues = some family → p.issues = some family) :
    issuers st' (requests.set i p') family ⊆ issuers st requests family := by
  rintro (hash | j) hx
  · obtain ⟨r, hr, hu, hfam⟩ := hx
    exact ⟨r, hrefresh hash r hr hu, hu, hfam⟩
  · obtain ⟨q, hq, hissue⟩ := hx
    rcases of_move hq with ⟨rfl, rfl⟩ | ⟨-, hq⟩
    · exact ⟨p, hi, hissues hissue⟩
    · exact ⟨q, hq, hissue⟩

/-- A call passes the right to issue on: from a token to the request that uses it first, from a
request to the token it stores. -/
theorem issuers_call (h : Call cfg now ok id st p st' p') (hi : requests[i]? = some p)
    (family : String) :
    Passes (issuers st requests family) (issuers st' (requests.set i p') family) := by
  cases h with
  | @use token client r hr hu =>
    refine .hand (.inl token) (.inr i) ?_ ?_
    · rintro ⟨q, hq, hissue⟩
      rw [move_self hi] at hq
      cases hq
      exact ⟨r, hr, hu, Option.some.inj hissue⟩
    · rintro (hash | j) hx
      · obtain ⟨r', hr', hu', hfam⟩ := hx
        obtain ⟨-, ⟨⟩⟩ | ⟨hne, hr'⟩ := of_update hr'
        · cases hu'
        · exact .inl ⟨⟨r', hr', hu', hfam⟩, by simpa using hne⟩
      · obtain ⟨q, hq, hissue⟩ := hx
        rcases of_move hq with ⟨rfl, -⟩ | ⟨-, hq⟩
        · exact .inr rfl
        · exact .inl ⟨⟨q, hq, hissue⟩, by simp⟩
  | @store family' token owner =>
    refine .hand (.inr i) (.inl id) ?_ ?_
    · rintro ⟨r, hr, -, rfl⟩
      simp only [oauthRefreshCreate, Function.update_self] at hr
      cases hr
      exact ⟨_, hi, rfl⟩
    · rintro (hash | j) hx
      · obtain ⟨r', hr', hu', hfam⟩ := hx
        obtain ⟨heq, -⟩ | ⟨-, hr'⟩ := of_update hr'
        · exact .inr (congrArg _ heq)
        · exact .inl ⟨⟨r', hr', hu', hfam⟩, by simp⟩
      · obtain ⟨q, hq, hissue⟩ := hx
        rcases of_move hq with ⟨rfl, rfl⟩ | ⟨hne, hq⟩
        · cases hissue
        · exact .inl ⟨⟨q, hq, hissue⟩, by simpa using hne⟩
  | consume hc hu hq =>
    refine .inl (issuers_sub (fun _ _ hr _ => hr) hi ?_)
    rcases hq with rfl | rfl
    · exact fun hissue => hissue
    · nofun
  | revoke hq =>
    refine .inl (issuers_sub (fun _ _ hr _ => hr) hi ?_)
    rcases hq with ⟨-, rfl⟩ | ⟨-, rfl⟩ <;> nofun
  | reuse => exact .inl (issuers_sub (fun _ _ hr _ => hr) hi (by simp [Phase.issues]))
  | _ =>
    refine .inl (issuers_sub (fun _ _ hr _ => hr) hi ?_)
    first | exact fun hissue => hissue | nofun

/-- Who can create, or has created, the sign-in of a code: the code itself while it can be
consumed, the request that consumed it, the creation. -/
def exchangers (st : Store) (requests : List Phase) (created : List (String × String))
    (code : String) : Set (Option (Nat ⊕ Nat))
  | none => ∃ c, st.codes code = some c ∧ c.consumedAt = none
  | some (.inl i) => ∃ p, requests[i]? = some p ∧ p.exchanges = some code
  | some (.inr k) => ∃ family, created[k]? = some (code, family)

theorem exchangers_sub (h : Call cfg now ok id st p st' p') (hi : requests[i]? = some p)
    (hp' : p'.exchanges ≠ some code) (hcreates : p.creates st = []) :
    exchangers st' (requests.set i p') (created ++ p.creates st) code ⊆
      exchangers st requests created code := by
  rintro (- | j | k) hx
  · obtain ⟨c', hc', hu'⟩ := hx
    obtain ⟨c, hc, -, hu, -⟩ := h.codes hc'
    exact ⟨c, hc, hu hu'⟩
  · obtain ⟨q, hq, hexch⟩ := hx
    rcases of_move hq with ⟨rfl, rfl⟩ | ⟨-, hq⟩
    · exact absurd hexch hp'
    · exact ⟨q, hq, hexch⟩
  · obtain ⟨family, hk⟩ := hx
    rw [hcreates, List.append_nil] at hk
    exact ⟨family, hk⟩

/-- A call passes the right to create on: from the code to the request that consumes it, from the
request to what it creates. -/
theorem exchangers_call (h : Call cfg now ok id st p st' p') (hi : requests[i]? = some p)
    (code : String) :
    Passes (exchangers st requests created code)
      (exchangers st' (requests.set i p') (created ++ p.creates st) code) := by
  have hcall := h
  cases h with
  | @consume code' client family c q hc hu hq =>
    rcases hq with rfl | rfl
    · by_cases heq : code' = code
      · subst heq
        refine .inr ⟨none, ⟨c, hc, hu⟩, some (.inl i), ?_⟩
        rintro (- | j | k) hx
        · obtain ⟨c', hc', hu'⟩ := hx
          simp only [Function.update_self] at hc'
          cases hc'
          cases hu'
        · obtain ⟨q, hq, hexch⟩ := hx
          rcases of_move hq with ⟨rfl, -⟩ | ⟨-, hq⟩
          · exact .inr rfl
          · exact .inl ⟨⟨q, hq, hexch⟩, by simp⟩
        · obtain ⟨family', hk⟩ := hx
          exact .inl ⟨⟨family', (List.append_nil created).symm ▸ hk⟩, by simp⟩
      · exact .inl (exchangers_sub hcall hi (fun h => heq (Option.some.inj h)) rfl)
    · exact .inl (exchangers_sub hcall hi (Option.some_ne_none _).symm rfl)
  | @create code' family owner start hnone =>
    have hcreates : (Phase.creating code' family owner start).creates st = [(code', family)] := by
      simp [Phase.creates, hnone]
    rw [hcreates]
    refine .hand (some (.inl i)) (some (.inr created.length)) ?_ ?_
    · rintro ⟨family', hk⟩
      rw [List.getElem?_concat_length] at hk
      cases hk
      exact ⟨_, hi, rfl⟩
    · rintro (- | j | k) hx
      · exact .inl ⟨hx, by simp⟩
      · obtain ⟨q, hq, hexch⟩ := hx
        rcases of_move hq with ⟨-, rfl⟩ | ⟨hne, hq⟩
        · cases hexch
        · exact .inl ⟨⟨q, hq, hexch⟩, by simpa using hne⟩
      · obtain ⟨family', hk⟩ := hx
        rcases of_arrive hk with ⟨rfl, -⟩ | hk
        · exact .inr rfl
        · exact .inl ⟨⟨family', hk⟩, by simp⟩
  | refuse hends hstamps hcreates => exact .inl (exchangers_sub hcall hi (Option.some_ne_none _).symm hcreates)
  | revoke hq =>
    refine .inl (exchangers_sub hcall hi ?_ rfl)
    rcases hq with ⟨-, rfl⟩ | ⟨-, rfl⟩ <;> exact (Option.some_ne_none _).symm
  | _ => exact .inl (exchangers_sub hcall hi (Option.some_ne_none _).symm rfl)

/-! ## One step -/

/-- What a request that has just arrived, a code grant apart, has no part in yet. -/
structure Phase.Quiet (p : Phase) : Prop where
  issues : p.issues = none
  exchanges : p.exchanges = none
  grants : p.grants = none
  revokes : p.revokes = none
  carries : p.carries = none

/-- What one step can do. -/
inductive Moves (cfg : Config) (s : State) : Label → State → Prop
  | authorize {code : String} {owner : Owner} {expiresAt : Instant} (hnew : code ∉ s.drawn)
      (hclient : owner.client ≠ "") :
      Moves cfg s (.authorize code owner expiresAt) { s with
        store := oauthCodeCreate s.store code owner expiresAt, drawn := code :: s.drawn }
  | exchange {code client family : String} (hnew : family ∉ s.drawn) :
      Moves cfg s (.exchange code client family)
        { s.arrive (.consuming code client family) with drawn := family :: s.drawn }
  | arrive {l : Label} {p : Phase} (hp : p.Quiet) : Moves cfg s l (s.arrive p)
  | advance {i : Nat} {now : Instant} {ok : Bool} {id : String} {p : Phase}
      (hi : s.requests[i]? = some p) (hnew : ∀ x ∈ p.draws ok id, x ∉ s.drawn) :
      Moves cfg s (.advance i now ok id) (s.after cfg i now ok id p)
  | cleanUp {before : Instant} :
      Moves cfg s (.cleanUp before) { s with store := oauthDeleteExpired s.store before }

theorem moves_step {s t : State} {l : Label} (h : step cfg s l = some t) : Moves cfg s l t := by
  cases l with
  | authorize code owner expiresAt =>
    simp only [step] at h
    split at h
    · cases h
    · next hok =>
      cases h
      exact .authorize (fun hd => hok (.inl hd)) (fun hc => hok (.inr (.inl hc)))
  | exchange code client family =>
    simp only [step] at h
    split at h
    · cases h
    · next hok =>
      cases h
      exact .exchange fun hd => hok (.inl hd)
  | advance i now ok id =>
    simp only [step] at h
    split at h
    · cases h
    · next p hi =>
      split at h
      · cases h
      · next hnew =>
        cases h
        exact .advance hi fun x hx hd => hnew ⟨x, hx, hd⟩
  | cleanUp before => cases h; exact .cleanUp
  | _ => cases h; exact .arrive ⟨rfl, rfl, rfl, rfl, rfl⟩

/-! ## Identifiers and rights -/

/-- Whatever is in use was drawn. -/
structure Drawn (s : State) : Prop where
  refresh : ∀ hash r, s.store.refresh hash = some r → hash ∈ s.drawn
  tokens : ∀ a t, s.store.tokens a = some t → a ∈ s.drawn
  issuers : ∀ family, (issuers s.store s.requests family).Nonempty → family ∈ s.drawn
  exchangers : ∀ code, (exchangers s.store s.requests s.created code).Nonempty → code ∈ s.drawn
  owners : ∀ family owner, s.owners family = some owner → family ∈ s.drawn

/-- One has the right to issue a family's next refresh token, and one to create a code's
sign-in. -/
structure Rights (s : State) : Prop where
  issuers : ∀ family, (issuers s.store s.requests family).Subsingleton
  exchangers : ∀ code, (exchangers s.store s.requests s.created code).Subsingleton

theorem issuers_arrive (hp : p.issues ≠ some family) :
    issuers st (requests ++ [p]) family ⊆ issuers st requests family := by
  rintro (hash | j) hx
  · exact hx
  · obtain ⟨q, hq, hissue⟩ := hx
    rcases of_arrive hq with ⟨-, rfl⟩ | hq
    · exact absurd hissue hp
    · exact ⟨q, hq, hissue⟩

theorem exchangers_arrive (hp : p.exchanges = none) :
    exchangers st (requests ++ [p]) created code ⊆ exchangers st requests created code := by
  rintro (- | j | k) hx
  · exact hx
  · obtain ⟨q, hq, hexch⟩ := hx
    rcases of_arrive hq with ⟨-, rfl⟩ | hq
    · rw [hp] at hexch; cases hexch
    · exact ⟨q, hq, hexch⟩
  · exact hx

theorem issuers_cleanUp (st : Store) (requests : List Phase) (before : Instant) (family : String) :
    issuers (oauthDeleteExpired st before) requests family ⊆ issuers st requests family := by
  rintro (hash | j) hx
  · obtain ⟨r, hr, hused, hfam⟩ := hx
    exact ⟨r, (Option.filter_eq_some_iff.mp hr).1, hused, hfam⟩
  · exact hx

theorem exchangers_cleanUp (st : Store) (requests : List Phase) (created : List (String × String))
    (before : Instant) (code : String) :
    exchangers (oauthDeleteExpired st before) requests created code ⊆
      exchangers st requests created code := by
  rintro (- | j | k) hx
  · obtain ⟨c, hc, hu⟩ := hx
    exact ⟨c, (Option.filter_eq_some_iff.mp hc).1, hu⟩
  · exact hx
  · exact hx

theorem exchangers_authorize {code' : String} {owner : Owner} {expiresAt : Instant}
    (hne : code' ≠ code) :
    exchangers (oauthCodeCreate st code owner expiresAt) requests created code' ⊆
      exchangers st requests created code' := by
  rintro (- | j | k) hx
  · obtain ⟨c, hc, hu⟩ := hx
    simp only [oauthCodeCreate, Function.update_of_ne hne] at hc
    exact ⟨c, hc, hu⟩
  · exact hx
  · exact hx

variable {s t : State} {l : Label}

theorem owners_after {owner : Owner} (h : (s.after cfg i now ok id p).owners family = some owner) :
    s.owners family = some owner ∨ p.stamps s.store = some (family, owner) := by
  simp only [State.after] at h
  cases hstamps : p.stamps s.store with
  | none => rw [hstamps] at h; exact .inl h
  | some x =>
    obtain ⟨family', owner'⟩ := x
    rw [hstamps] at h
    obtain ⟨rfl, ⟨⟩⟩ | ⟨-, h⟩ := of_update h
    · exact .inr rfl
    · exact .inl h

theorem Drawn.grow (h : Drawn s) (x : String) : Drawn { s with drawn := x :: s.drawn } where
  refresh hash r hr := .tail _ (h.refresh hash r hr)
  tokens a t ht := .tail _ (h.tokens a t ht)
  issuers family hne := .tail _ (h.issuers family hne)
  exchangers code hne := .tail _ (h.exchangers code hne)
  owners family owner ho := .tail _ (h.owners family owner ho)

theorem drawn_step (h : Drawn s) (hmove : Moves cfg s l t) : Drawn t := by
  cases hmove with
  | @authorize code owner expiresAt hnew hclient =>
    refine { h.grow code with exchangers := fun code' hne => ?_ }
    by_cases heq : code' = code
    · subst heq; exact .head _
    · exact .tail _ (h.exchangers code' (hne.mono (exchangers_authorize heq)))
  | @exchange code client family hnew =>
    refine { h.grow family with
      issuers := fun family' hne => ?_
      exchangers := fun code' hne =>
        .tail _ (h.exchangers code' (hne.mono (exchangers_arrive rfl))) }
    by_cases heq : family = family'
    · subst heq; exact .head _
    · have hp : (Phase.consuming code client family).issues ≠ some family' := by
        simpa [Phase.issues] using heq
      exact .tail _ (h.issuers family' (hne.mono (issuers_arrive hp)))
  | arrive hp =>
    exact { h with
      issuers := fun family hne =>
        h.issuers family (hne.mono (issuers_arrive (by simp [hp.issues])))
      exchangers := fun code hne => h.exchangers code (hne.mono (exchangers_arrive hp.exchanges)) }
  | @advance i now ok id p hi hnew =>
    have hcall := call_advance cfg now ok id s.store p
    have hold : ∀ x ∈ s.drawn, x ∈ p.draws ok id ++ s.drawn := fun x hx =>
      List.mem_append_right _ hx
    refine ⟨fun hash r' hr' => ?_, fun a t' ht' => ?_, fun family hne => hold _
      (h.issuers family ((issuers_call hcall hi family).nonempty hne)), fun code hne => hold _
      (h.exchangers code ((exchangers_call hcall hi code).nonempty hne)), fun family owner ho => ?_⟩
    · rcases hcall.refresh hr' with ⟨r, hr, -⟩ | hdraw
      · exact hold _ (h.refresh hash r hr)
      · exact List.mem_append_left _ hdraw
    · by_cases ha : a ∈ p.draws ok id
      · exact List.mem_append_left _ ha
      · obtain ⟨g, -, hg⟩ := hcall.tokens ha
        obtain ⟨t, ht, -⟩ := Option.map_eq_some_iff.mp (hg.symm.trans ht')
        exact hold _ (h.tokens a t ht)
    · rcases owners_after ho with ho | hstamps
      · exact hold _ (h.owners family owner ho)
      · obtain ⟨code, client, c, rfl, -⟩ := stamps_eq_some hstamps
        exact hold _ (h.issuers family ⟨.inr i, _, hi, rfl⟩)
  | cleanUp =>
    exact { h with
      refresh := fun hash r hr => h.refresh hash r (Option.filter_eq_some_iff.mp hr).1
      issuers := fun family hne => h.issuers family (hne.mono (issuers_cleanUp ..))
      exchangers := fun code hne => h.exchangers code (hne.mono (exchangers_cleanUp ..)) }

theorem rights_step (hd : Drawn s) (h : Rights s) (hmove : Moves cfg s l t) : Rights t := by
  cases hmove with
  | @authorize code owner expiresAt hnew hclient =>
    refine ⟨h.issuers, fun code' => ?_⟩
    by_cases heq : code' = code
    · subst heq
      -- nobody had to do with the new code
      have honly : ∀ x ∈ exchangers (oauthCodeCreate s.store code' owner expiresAt) s.requests
          s.created code', x = none := by
        rintro (- | j | k) hx
        · rfl
        · exact absurd (hd.exchangers code' ⟨some (.inl j), hx⟩) hnew
        · exact absurd (hd.exchangers code' ⟨some (.inr k), hx⟩) hnew
      exact Set.subsingleton_of_subset_singleton honly
    · exact (h.exchangers code').anti (exchangers_authorize heq)
  | @exchange code client family hnew =>
    refine ⟨fun family' => ?_, fun code' => (h.exchangers code').anti (exchangers_arrive rfl)⟩
    by_cases heq : family = family'
    · subst heq
      have honly : ∀ x ∈ issuers s.store (s.requests ++ [.consuming code client family]) family,
          x = .inr s.requests.length := by
        rintro (hash | j) hx
        · exact absurd (hd.issuers family ⟨.inl hash, hx⟩) hnew
        · obtain ⟨q, hq, hissue⟩ := hx
          rcases of_arrive hq with ⟨rfl, -⟩ | hq
          · rfl
          · exact absurd (hd.issuers family ⟨.inr j, q, hq, hissue⟩) hnew
      exact Set.subsingleton_of_subset_singleton honly
    · exact (h.issuers family').anti (issuers_arrive (by simpa [Phase.issues] using heq))
  | arrive hp =>
    exact ⟨fun family => (h.issuers family).anti (issuers_arrive (by simp [hp.issues])),
      fun code => (h.exchangers code).anti (exchangers_arrive hp.exchanges)⟩
  | @advance i now ok id p hi hnew =>
    have hcall := call_advance cfg now ok id s.store p
    exact ⟨fun family => (issuers_call hcall hi family).subsingleton (h.issuers family),
      fun code => (exchangers_call hcall hi code).subsingleton (h.exchangers code)⟩
  | cleanUp =>
    exact ⟨fun family => (h.issuers family).anti (issuers_cleanUp ..),
      fun code => (h.exchangers code).anti (exchangers_cleanUp ..)⟩

end Loomcycle.OAuth
