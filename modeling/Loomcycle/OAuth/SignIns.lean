import Loomcycle.OAuth.Rights

/-! App sign-ins over every interleaving of requests: a code creates one family, a family has one
unused refresh token, and a revoked family stays revoked, with every access token that was handed
out through it retired by the requests that were under way. -/

namespace Loomcycle.OAuth

open Lib.Partial Lib.Pool Lib.Transition

variable {cfg : Config} {now : Instant} {ok : Bool} {id : String} {p p' : Phase} {i : Nat}
  {s t : State} {l : Label}

/-! ## Owners -/

/-- Codes, families, requests and tokens agree on whose a family is, but for the tombstone of a
family, which is nobody's. -/
structure Owned (s : State) : Prop where
  unstamped : ∀ (i : Nat) (code client family : String),
    s.requests[i]? = some (.consuming code client family) → s.owners family = none
  client : ∀ family owner, s.owners family = some owner → owner.client ≠ ""
  codes : ∀ code c, s.store.codes code = some c →
    c.owner.client ≠ "" ∧ (c.family ≠ "" → s.owners c.family = some c.owner)
  grants : ∀ (i : Nat) (p : Phase) (family : String) (owner : Owner), s.requests[i]? = some p →
    p.grants = some (family, owner) → s.owners family = some owner
  families : ∀ family f, s.store.families family = some f →
    s.owners family = some f.owner ∨ f.revokedAt.isSome ∧ f.owner.client = ""
  tokens : ∀ a t, s.store.tokens a = some t → s.owners t.family = some t.owner
  revokes : ∀ (i : Nat) (p : Phase) (client family : String), s.requests[i]? = some p →
    p.revokes = some (client, family) →
    (∃ owner, s.owners family = some owner ∧ owner.client = client) ∨
      client = "" ∧ s.ended family = true
  revoked : ∀ family f, s.store.families family = some f → f.revokedAt.isSome →
    s.ended family = true
  ended : ∀ family, s.ended family = true → ∃ owner, s.owners family = some owner

variable {family client a token : String} {r : RefreshRow}

theorem ended_after (he : s.ended family = true) :
    (s.after cfg i now ok id p).ended family = true := by
  simp only [State.after, he, Bool.true_or]

theorem stamped_after {owner : Owner} (hstamps : p.stamps s.store = some (family, owner)) :
    (s.after cfg i now ok id p).owners family = some owner := by
  simp only [State.after, hstamps]
  exact Function.update_self ..

section

variable (h : Owned s) (hi : s.requests[i]? = some p)
include h hi

theorem Owned.owners_kept {owner : Owner} (ho : s.owners family = some owner) :
    (s.after cfg i now ok id p).owners family = some owner := by
  simp only [State.after]
  cases hstamps : p.stamps s.store with
  | none => exact ho
  | some x =>
    obtain ⟨family', owner'⟩ := x
    obtain ⟨code, client, c, rfl, -⟩ := stamps_eq_some hstamps
    have hne : family ≠ family' := by
      rintro rfl
      rw [h.unstamped i code client family hi] at ho
      cases ho
    rw [recordOwner, Function.update_of_ne hne, ho]

theorem Owned.ends_owned (he : p.ends s.store family = true) :
    ∃ owner, s.owners family = some owner := by
  rcases ends_eq_true he with ⟨client, rfl⟩ | hsome
  · rcases h.revokes i _ client family hi rfl with ⟨owner, ho, -⟩ | ⟨-, hended⟩
    · exact ⟨owner, ho⟩
    · exact h.ended family hended
  · obtain ⟨f, hf⟩ := Option.isSome_iff_exists.mp hsome
    rcases h.families family f hf with ho | ⟨hrev, -⟩
    · exact ⟨_, ho⟩
    · exact h.ended family (h.revoked family f hf hrev)

/-- No other exchange stamps the family an exchange has drawn. -/
theorem Owned.unstamped_after (hr : Rights s) {j : Nat} {code : String}
    (hj : (s.after cfg i now ok id p).requests[j]? = some (.consuming code client family)) :
    (s.after cfg i now ok id p).owners family = none := by
  have hcall := call_advance cfg now ok id s.store p
  rcases of_move hj with ⟨rfl, hq⟩ | ⟨hne, hj'⟩
  · rw [← hq] at hcall
    exact hcall.not_consuming.elim
  cases ho : (s.after cfg i now ok id p).owners family with
  | none => rfl
  | some owner =>
    rcases owners_after ho with ho | hstamps
    · rw [h.unstamped j code client family hj'] at ho
      cases ho
    · obtain ⟨code', client', c, rfl, -⟩ := stamps_eq_some hstamps
      have hissuer : Sum.inr i ∈ issuers s.store s.requests family := ⟨_, hi, rfl⟩
      have hissuer' : Sum.inr j ∈ issuers s.store s.requests family := ⟨_, hj', rfl⟩
      exact absurd (Sum.inr.inj (hr.issuers family hissuer' hissuer)) hne

theorem Owned.families_after {f' : FamilyRow}
    (hf' : (s.after cfg i now ok id p).store.families family = some f') :
    (s.owners family = some f'.owner ∨ f'.revokedAt.isSome ∧ f'.owner.client = "") ∧
      (f'.revokedAt.isSome → (s.after cfg i now ok id p).ended family = true) := by
  rcases (call_advance cfg now ok id s.store p).families hf' with
    ⟨f, hf, howner, hrev⟩ | ⟨code, owner, start, rfl, hnone, rfl⟩ | ⟨he, start, rfl⟩
  · rw [howner, hrev]
    exact ⟨h.families family f hf, fun hsome => ended_after (h.revoked family f hf hsome)⟩
  · exact ⟨.inl (h.grants i _ family owner hi rfl), nofun⟩
  · refine ⟨?_, fun _ => by simp only [State.after, he, Bool.or_true]⟩
    cases hf : s.store.families family with
    | none => exact .inr ⟨rfl, rfl⟩
    | some f =>
      rw [owner_revoked]
      rcases h.families family f hf with ho | ⟨-, hclient⟩
      · exact .inl ho
      · exact .inr ⟨isSome_revoked .., hclient⟩

theorem Owned.tokens_after {t' : TokenRow}
    (hnew : ∀ a t, s.store.tokens a = some t → a ∉ p.draws ok id)
    (ht' : (s.after cfg i now ok id p).store.tokens a = some t') :
    s.owners t'.family = some t'.owner := by
  have hcall := call_advance cfg now ok id s.store p
  cases ht : s.store.tokens a with
  | none =>
    obtain ⟨family, owner, rfl, rfl⟩ := hcall.minted ht' ht
    exact h.grants i _ family owner hi rfl
  | some t =>
    obtain ⟨g, hg, heq⟩ := hcall.tokens (hnew a t ht)
    rw [ht] at heq
    obtain rfl := Option.mem_unique heq ht'
    rw [(hg t).owner, (hg t).family]
    exact h.tokens a t ht

/-- Who a family is revoked for is its owner, unless it had ended and the row read was its
tombstone. -/
theorem Owned.revokes_after {j : Nat} {q : Phase}
    (hj : (s.after cfg i now ok id p).requests[j]? = some q)
    (hq : q.revokes = some (client, family)) :
    (∃ owner, s.owners family = some owner ∧ owner.client = client) ∨
      client = "" ∧ s.ended family = true := by
  rcases of_move hj with ⟨rfl, rfl⟩ | ⟨-, hj⟩
  · rcases (call_advance cfg now ok id s.store p).revokes hq with
      ⟨code, c, hc, rfl, hne, rfl⟩ | ⟨f, hf, rfl⟩ | ⟨owner, hg, rfl⟩ | ⟨rfl, -⟩
    · exact .inl ⟨c.owner, (h.codes code c hc).2 hne, rfl⟩
    · rcases h.families family f hf with ho | ⟨hrev, hclient⟩
      · exact .inl ⟨f.owner, ho, rfl⟩
      · exact .inr ⟨hclient, h.revoked family f hf hrev⟩
    · exact .inl ⟨owner, h.grants _ p family owner hi hg, rfl⟩
    · exact h.revokes _ _ client family hi rfl
  · exact h.revokes j q client family hj hq

theorem owned_after (hr : Rights s)
    (hnew : ∀ a t, s.store.tokens a = some t → a ∉ p.draws ok id) :
    Owned (s.after cfg i now ok id p) := by
  have hcall := call_advance cfg now ok id s.store p
  have hkept : ∀ {family owner}, s.owners family = some owner →
      (s.after cfg i now ok id p).owners family = some owner := fun ho => h.owners_kept hi ho
  constructor
  case unstamped => exact fun j code client family hj => h.unstamped_after hi hr hj
  case client =>
    intro family owner ho
    rcases owners_after ho with ho | hstamps
    · exact h.client family owner ho
    · obtain ⟨code, client, c, -, hc, rfl⟩ := stamps_eq_some hstamps
      exact (h.codes code c hc).1
  case codes =>
    intro code c' hc'
    obtain ⟨c, hc, howner, -, hfamily⟩ := hcall.codes hc'
    obtain ⟨hclient, hstamped⟩ := h.codes code c hc
    rw [howner]
    refine ⟨hclient, fun hne => ?_⟩
    rcases hfamily with heq | hstamps
    · rw [heq] at hne ⊢
      exact hkept (hstamped hne)
    · exact stamped_after hstamps
  case grants =>
    intro j q family owner hj hq
    rcases of_move hj with ⟨rfl, rfl⟩ | ⟨-, hj⟩
    · rcases hcall.grants hq with hg | hstamps | ⟨f, hf, hlive, rfl⟩
      · exact hkept (h.grants _ p family owner hi hg)
      · exact stamped_after hstamps
      · rcases h.families family f hf with ho | ⟨hrev, -⟩
        · exact hkept ho
        · rw [hlive] at hrev; cases hrev
    · exact hkept (h.grants j q family owner hj hq)
  case families => exact fun family f' hf' => (h.families_after hi hf').1.imp_left hkept
  case tokens => exact fun a t' ht' => hkept (h.tokens_after hi hnew ht')
  case revokes =>
    intro j q client family hj hq
    rcases h.revokes_after hi hj hq with ⟨owner, ho, hclient⟩ | ⟨hclient, he⟩
    · exact .inl ⟨owner, hkept ho, hclient⟩
    · exact .inr ⟨hclient, ended_after he⟩
  case revoked => exact fun family f' hf' hrev => (h.families_after hi hf').2 hrev
  case ended =>
    intro family he
    have howned : ∃ owner, s.owners family = some owner := by
      rcases Bool.or_eq_true_iff.mp he with he | he
      · exact h.ended family he
      · exact h.ends_owned hi he
    obtain ⟨owner, ho⟩ := howned
    exact ⟨owner, hkept ho⟩

end

theorem Owned.arrive (h : Owned s) (hgrants : p.grants = none) (hrevokes : p.revokes = none)
    (hstamps : ∀ code client family, p = .consuming code client family → s.owners family = none) :
    Owned (s.arrive p) := by
  refine { h with unstamped := ?_, grants := ?_, revokes := ?_ }
  · intro j code client family hj
    rcases of_arrive hj with ⟨-, heq⟩ | hj
    · exact hstamps code client family heq.symm
    · exact h.unstamped j code client family hj
  · intro j q family owner hj hq
    rcases of_arrive hj with ⟨-, rfl⟩ | hj
    · rw [hgrants] at hq; cases hq
    · exact h.grants j q family owner hj hq
  · intro j q client family hj hq
    rcases of_arrive hj with ⟨-, rfl⟩ | hj
    · rw [hrevokes] at hq; cases hq
    · exact h.revokes j q client family hj hq

theorem owned_step (hd : Drawn s) (hr : Rights s) (h : Owned s) (hmove : Moves cfg s l t) :
    Owned t := by
  cases hmove with
  | @authorize code owner expiresAt hnew hclient =>
    refine { h with codes := fun code' c hc => ?_ }
    obtain ⟨-, ⟨⟩⟩ | ⟨-, hc⟩ := of_update hc
    · exact ⟨hclient, fun hne => absurd rfl hne⟩
    · exact h.codes code' c hc
  | exchange hnew =>
    refine { h.arrive rfl rfl fun _ _ _ heq => ?_ with }
    cases heq
    cases ho : s.owners _ with
    | none => rfl
    | some owner => exact absurd (hd.owners _ owner ho) hnew
  | arrive hp =>
    refine h.arrive hp.grants hp.revokes ?_
    rintro code client family rfl
    exact absurd hp.issues (by simp [Phase.issues])
  | advance hi hnew =>
    exact owned_after h hi hr fun a t ht hdraw => hnew a hdraw (hd.tokens a t ht)
  | cleanUp =>
    exact { h with
      codes := fun code c hc => h.codes code c (Option.filter_eq_some_iff.mp hc).1
      families := fun family f hf => h.families family f (Option.filter_eq_some_iff.mp hf).1
      revoked := fun family f hf => h.revoked family f (Option.filter_eq_some_iff.mp hf).1 }

/-! ## Revoked families stay revoked -/

/-- The family an exchange is about to create. -/
def Phase.awaits : Phase → Option String
  | .creating _ family _ _ => some family
  | _ => none

/-- What the hour's margin of the clean-up is for: it leaves the row of a family that an exchange
has yet to create. -/
def Margin (s : State) : Label → Prop
  | .cleanUp before => ∀ p ∈ s.requests, ∀ family ∈ p.awaits, ∀ f ∈ s.store.families family,
      f.dead before = false
  | _ => True

instance (s : State) (l : Label) : Decidable (Margin s l) := by
  cases l <;> unfold Margin <;> infer_instance

structure Ended (s : State) : Prop where
  revoked : ∀ family f, s.ended family = true → s.store.families family = some f →
    f.revokedAt.isSome
  kept : ∀ (i : Nat) (code family : String) (owner : Owner) (start : Instant),
    s.ended family = true → s.requests[i]? = some (.creating code family owner start) →
    (s.store.families family).isSome
  retiring : ∀ (i : Nat) (client family : String) (start : Instant),
    s.requests[i]? = some (.retiring client family start) → client ≠ ""

theorem ended_advance (ho : Owned s) (h : Ended s) (hi : s.requests[i]? = some p) :
    Ended (s.after cfg i now ok id p) := by
  have hcall := call_advance cfg now ok id s.store p
  constructor
  case revoked =>
    intro family f' he hf'
    rcases Bool.or_eq_true_iff.mp he with hbefore | hnow
    · rcases hcall.families hf' with ⟨f, hf, -, hrev⟩ | ⟨code, owner, start, rfl, hnone, rfl⟩ |
        ⟨-, start, rfl⟩
      · rw [hrev]; exact h.revoked family f hbefore hf
      · have hsome := h.kept i code family owner start hbefore hi
        rw [hnone] at hsome
        cases hsome
      · exact isSome_revoked ..
    · obtain ⟨f, hf, hrev⟩ := hcall.ends hnow
      obtain rfl := Option.mem_unique hf hf'
      exact hrev
  case kept =>
    intro j code family owner start he hj
    rcases of_move hj with ⟨rfl, hq⟩ | ⟨-, hj⟩
    · -- a family that is about to be created was not known before
      rw [← hq] at hcall
      obtain ⟨client, rfl⟩ := hcall.creating
      rcases Bool.or_eq_true_iff.mp he with he | he
      · obtain ⟨owner', howner⟩ := ho.ended family he
        rw [ho.unstamped _ code client family hi] at howner
        cases howner
      · cases he
    · rcases Bool.or_eq_true_iff.mp he with he | he
      · exact hcall.families_isSome (h.kept j code family owner start he hj)
      · obtain ⟨f, hf, -⟩ := hcall.ends he
        exact Option.isSome_iff_exists.mpr ⟨f, hf⟩
  case retiring =>
    intro j client family start hj
    rcases of_move hj with ⟨rfl, hq⟩ | ⟨-, hj⟩
    · rw [← hq] at hcall
      exact hcall.retiring
    · exact h.retiring j client family start hj

theorem Ended.arrive (h : Ended s) (hgrants : p.grants = none) (hrevokes : p.revokes = none) :
    Ended (s.arrive p) := by
  refine ⟨h.revoked, fun j code family owner start he hj => ?_, fun j client family start hj => ?_⟩
  · rcases of_arrive hj with ⟨-, rfl⟩ | hj
    · cases hgrants
    · exact h.kept j code family owner start he hj
  · rcases of_arrive hj with ⟨-, rfl⟩ | hj
    · cases hrevokes
    · exact h.retiring j client family start hj

theorem ended_step (hm : Margin s l) (ho : Owned s) (h : Ended s) (hmove : Moves cfg s l t) :
    Ended t := by
  cases hmove with
  | authorize => exact ⟨h.revoked, h.kept, h.retiring⟩
  | exchange => exact { h.arrive rfl rfl with }
  | arrive hp => exact h.arrive hp.grants hp.revokes
  | advance hi => exact ended_advance ho h hi
  | cleanUp =>
    refine ⟨fun family f he hf => h.revoked family f he (Option.filter_eq_some_iff.mp hf).1,
      fun j code family owner start he hj => ?_, h.retiring⟩
    obtain ⟨f, hf⟩ := Option.isSome_iff_exists.mp (h.kept j code family owner start he hj)
    have hdead := hm _ (List.mem_of_getElem? hj) family rfl f hf
    simp [oauthDeleteExpired, hf, hdead]

/-! ## Access tokens of a revoked family are retired -/

/-- The access tokens requests carry and have handed out are rows of their families. -/
structure Handed (s : State) : Prop where
  carried : ∀ (i : Nat) (p : Phase) (family a : String), s.requests[i]? = some p →
    p.carries = some (family, a) → ∃ t, s.store.tokens a = some t ∧ t.family = family
  handed : ∀ family a, (family, a) ∈ s.handed → ∃ t, s.store.tokens a = some t ∧ t.family = family

theorem token_after (hnew : ∀ a t, s.store.tokens a = some t → a ∉ p.draws ok id) {t : TokenRow}
    (ht : s.store.tokens a = some t) :
    ∃ t', (s.after cfg i now ok id p).store.tokens a = some t' ∧ t.Kept t' := by
  obtain ⟨g, hg, heq⟩ := (call_advance cfg now ok id s.store p).tokens (hnew a t ht)
  rw [ht] at heq
  exact ⟨g t, heq, hg t⟩

theorem handed_advance (h : Handed s) (hi : s.requests[i]? = some p)
    (hnew : ∀ a t, s.store.tokens a = some t → a ∉ p.draws ok id) :
    Handed (s.after cfg i now ok id p) := by
  have hkept : ∀ {family a}, (∃ t, s.store.tokens a = some t ∧ t.family = family) →
      ∃ t, (s.after cfg i now ok id p).store.tokens a = some t ∧ t.family = family := by
    rintro family a ⟨t, ht, rfl⟩
    obtain ⟨t', ht', hk⟩ := token_after hnew ht
    exact ⟨t', ht', hk.family⟩
  constructor
  case carried =>
    intro j q family a hj hq
    rcases of_move hj with ⟨rfl, rfl⟩ | ⟨-, hj⟩
    · rcases (call_advance cfg now ok id s.store p).carries hq with hc | hminted
      · exact hkept (h.carried _ p family a hi hc)
      · exact hminted
    · exact hkept (h.carried j q family a hj hq)
  case handed =>
    intro family a hmem
    rcases List.mem_append.mp hmem with hmem | hmem
    · exact hkept (h.handed family a hmem)
    · exact hkept (h.carried i p family a hi (mem_hands hmem).1)

theorem Handed.arrive (h : Handed s) (hcarries : p.carries = none) : Handed (s.arrive p) := by
  refine ⟨fun j q family a hj hq => ?_, h.handed⟩
  rcases of_arrive hj with ⟨-, rfl⟩ | hj
  · rw [hcarries] at hq; cases hq
  · exact h.carried j q family a hj hq

theorem handed_step (hd : Drawn s) (h : Handed s) (hmove : Moves cfg s l t) : Handed t := by
  cases hmove with
  | authorize | cleanUp => exact ⟨h.carried, h.handed⟩
  | exchange => exact { h.arrive rfl with }
  | arrive hp => exact h.arrive hp.carries
  | advance hi hnew =>
    exact handed_advance h hi fun a t ht hdraw => hnew a hdraw (hd.tokens a t ht)

def Retired (st : Store) (a : String) : Prop := ∃ t, st.tokens a = some t ∧ t.retiredAt.isSome

/-- The request's next call retires the access tokens of the family. -/
def Phase.settles (owners : String → Option Owner) (family : String) : Phase → Prop
  | .retiring _ family' _ => family' = family
  | .clientTokens client _ => ∃ owner, owners family = some owner ∧ owner.client = client
  | .subjectTokens tenant subject _ =>
    ∃ owner, owners family = some owner ∧ owner.tenant = tenant ∧ owner.subject = subject
  | _ => False

/-- Every access token handed out through the family is retired, or one of the requests `who` is
about to retire it. -/
def Due (who : Set Nat) (family : String) (s : State) : Prop :=
  ∀ a, (family, a) ∈ s.handed → Retired s.store a ∨
    ∃ i ∈ who, ∃ p, s.requests[i]? = some p ∧ p.settles s.owners family

theorem ended_moves (he : s.ended family = true) (hmove : Moves cfg s l t) :
    t.ended family = true := by
  cases hmove with
  | advance => exact ended_after he
  | _ => exact he

structure Sound (s : State) : Prop where
  drawn : Drawn s
  rights : Rights s
  owned : Owned s
  ended : Ended s
  handed : Handed s

theorem Sound.settles_retires (h : Sound s) (he : s.ended family = true)
    (hi : s.requests[i]? = some p) (hp : p.settles s.owners family) (ha : (family, a) ∈ s.handed) :
    Retired (s.after cfg i now ok id p).store a := by
  obtain ⟨t, ht, rfl⟩ := h.handed.handed family a ha
  have howner := h.owned.tokens a t ht
  cases p with
  | retiring client family' start =>
    obtain rfl : family' = t.family := hp
    have hclient : t.owner.client = client := by
      rcases h.owned.revokes i _ client t.family hi rfl with ⟨owner, ho, hclient⟩ | ⟨hblank, -⟩
      · rw [howner] at ho; cases ho; exact hclient
      · exact absurd hblank (h.ended.retiring i client _ start hi)
    exact retireWhere_retires ht (by simp [hclient])
  | clientTokens client start =>
    obtain ⟨owner, ho, hclient⟩ := hp
    rw [howner] at ho
    cases ho
    exact retireWhere_retires ht (by simp [hclient])
  | subjectTokens tenant subject start =>
    obtain ⟨owner, ho, htenant, hsubject⟩ := hp
    rw [howner] at ho
    cases ho
    have hdead : (s.store.families t.family).all (·.revokedAt.isSome) = true := by
      cases hf : s.store.families t.family with
      | none => rfl
      | some f => exact h.ended.revoked t.family f he hf
    have hclient := h.owned.client t.family t.owner howner
    exact retireWhere_retires ht (by simp [htenant, hsubject, hclient, hdead])
  | _ => cases hp

theorem Phase.settles_mono {owners owners' : String → Option Owner}
    (h : ∀ owner, owners family = some owner → owners' family = some owner)
    (hp : p.settles owners family) : p.settles owners' family := by
  cases p with
  | retiring => exact hp
  | clientTokens | subjectTokens =>
    obtain ⟨owner, ho, hrest⟩ := hp
    exact ⟨owner, h owner ho, hrest⟩
  | _ => cases hp

/-- A revoked family is settled by the requests it was left to. -/
theorem due_step (h : Sound s) {who : Set Nat} (he : s.ended family = true)
    (hdue : Due who family s) (hmove : Moves cfg s l t) : Due who family t := by
  have harrive : ∀ p, Due who family (s.arrive p) := by
    intro p a ha
    rcases hdue a ha with hret | ⟨i, hwho, q, hq, hsettles⟩
    · exact .inl hret
    · exact .inr ⟨i, hwho, q, arrive_of hq, hsettles⟩
  cases hmove with
  | authorize | cleanUp => exact hdue
  | exchange | arrive => exact harrive _
  | @advance i now ok id p hi hnew =>
    have hnew : ∀ a t, s.store.tokens a = some t → a ∉ p.draws ok id := fun a t ht hdraw =>
      hnew a hdraw (h.drawn.tokens a t ht)
    intro a ha
    have hbefore : (family, a) ∈ s.handed := by
      rcases List.mem_append.mp ha with hbefore | hnow
      · exact hbefore
      · obtain ⟨-, f, hf, hlive⟩ := mem_hands hnow
        have hrev := h.ended.revoked family f he hf
        rw [hlive] at hrev
        cases hrev
    rcases hdue a hbefore with ⟨t, ht, hret⟩ | ⟨j, hwho, q, hq, hsettles⟩
    · obtain ⟨t', ht', hk⟩ := token_after hnew ht
      exact .inl ⟨t', ht', hk.retired hret⟩
    by_cases hij : j = i
    · subst hij
      obtain rfl := Option.mem_unique hi hq
      exact .inl (h.settles_retires he hi hsettles hbefore)
    · refine .inr ⟨j, hwho, q, ?_,
        q.settles_mono (fun _ ho => h.owned.owners_kept hi ho) hsettles⟩
      exact (List.getElem?_set_ne (Ne.symm hij)).trans hq

/-- A request that revokes a family is about to retire its tokens. -/
theorem settles_of_ends (h : Sound s) (hlive : s.ended family = false)
    (hi : s.requests[i]? = some p) (he : p.ends s.store family = true) :
    (advance cfg now ok id s.store p).2.settles s.owners family := by
  have howned : ∀ f, s.store.families family = some f → s.owners family = some f.owner := by
    intro f hf
    rcases h.owned.families family f hf with ho | ⟨hrev, -⟩
    · exact ho
    · rw [h.owned.revoked family f hf hrev] at hlive
      cases hlive
  cases p with
  | revoking client family' =>
    obtain rfl : family = family' := by simpa [Phase.ends] using he
    have hne : client ≠ "" := by
      rcases h.owned.revokes i _ client family hi rfl with ⟨owner, ho, rfl⟩ | ⟨-, hended⟩
      · exact h.owned.client family owner ho
      · rw [hlive] at hended; cases hended
    simp only [advance, if_neg hne, Phase.settles]
  | clientFamilies client start =>
    obtain ⟨f, hf, hclient⟩ := (Option.any_eq_true _ _).mp he
    exact ⟨f.owner, howned f hf, of_decide_eq_true hclient⟩
  | subjectFamilies tenant subject start =>
    obtain ⟨f, hf, hsubject⟩ := (Option.any_eq_true _ _).mp he
    exact ⟨f.owner, howned f hf, by simpa using hsubject⟩
  | _ => cases he

theorem due_of_ends (h : Sound s) (hlive : s.ended family = false) (he : t.ended family = true)
    (hmove : Moves cfg s l t) : Due Set.univ family t := by
  cases hmove with
  | @advance i now ok id p hi hnew =>
    intro a ha
    rcases Bool.or_eq_true_iff.mp he with hbefore | hnow
    · rw [hlive] at hbefore; cases hbefore
    · exact .inr ⟨i, Set.mem_univ i, _, move_self hi, Phase.settles_mono
        (fun _ ho => h.owned.owners_kept hi ho) (settles_of_ends h hlive hi hnow)⟩
  | _ => exact absurd (hlive.symm.trans he) (by simp)

theorem sound_init : Sound .init := by
  have hissuers : ∀ family x, x ∉ issuers State.init.store State.init.requests family := by
    rintro family (hash | j) ⟨r, hr, -⟩
    · cases hr
    · cases hr
  have hexchangers : ∀ code x,
      x ∉ exchangers State.init.store State.init.requests State.init.created code := by
    rintro code (- | j | k) ⟨y, hy⟩
    · cases hy.1
    · cases hy.1
    · cases hy
  refine ⟨⟨nofun, nofun, fun family ⟨x, hx⟩ => absurd hx (hissuers family x),
    fun code ⟨x, hx⟩ => absurd hx (hexchangers code x), nofun⟩,
    ⟨fun family x hx => absurd hx (hissuers family x),
      fun code x hx => absurd hx (hexchangers code x)⟩, ?_, ?_, ?_⟩
  · constructor <;> nofun
  · constructor <;> nofun
  · constructor <;> nofun

theorem sound_step (hm : Margin s l) (h : Sound s) (hmove : Moves cfg s l t) : Sound t where
  drawn := drawn_step h.drawn hmove
  rights := rights_step h.drawn h.rights hmove
  owned := owned_step h.drawn h.rights h.owned hmove
  ended := ended_step hm h.owned h.ended hmove
  handed := handed_step h.drawn h.handed hmove

/-- In every run, revoked families are settled or being settled. -/
theorem sound_run (h : Run (step cfg) Margin .init s) :
    Sound s ∧ ∀ family, s.ended family = true → Due Set.univ family s := by
  refine h.invariant (I := fun s => Sound s ∧ ∀ family, s.ended family = true →
    Due Set.univ family s) ?_ ⟨sound_init, nofun⟩
  rintro s l t ⟨hs, hdue⟩ hm hstep
  have hmove := moves_step hstep
  refine ⟨sound_step hm hs hmove, fun family he => ?_⟩
  cases hlive : s.ended family with
  | true => exact due_step hs hlive (hdue family hlive) hmove
  | false => exact due_of_ends hs hlive he hmove

theorem rights_run (h : Run (step cfg) Any .init s) : Rights s := by
  have hboth : Drawn s ∧ Rights s := by
    refine h.invariant (I := fun s => Drawn s ∧ Rights s) ?_ ⟨sound_init.drawn, sound_init.rights⟩
    rintro s l t ⟨hd, hr⟩ - hstep
    have hmove := moves_step hstep
    exact ⟨drawn_step hd hmove, rights_step hd hr hmove⟩
  exact hboth.2

theorem created_nodup (h : Rights s) : (s.created.map Prod.fst).Nodup := by
  rw [List.Nodup, List.pairwise_map, List.pairwise_iff_getElem]
  intro k k' hk hk' hlt hcode
  have hmem : some (.inr k) ∈ exchangers s.store s.requests s.created s.created[k].1 :=
    ⟨_, List.getElem?_eq_getElem hk⟩
  have hmem' : some (.inr k') ∈ exchangers s.store s.requests s.created s.created[k].1 :=
    ⟨s.created[k'].2, by rw [hcode]; exact List.getElem?_eq_getElem hk'⟩
  have hkk := h.exchangers _ hmem hmem'
  simp only [Option.some.injEq, Sum.inr.injEq] at hkk
  exact absurd hkk (Nat.ne_of_lt hlt)

theorem one_unused (h : Rights s) {hash hash' : String} {r' : RefreshRow}
    (hr : s.store.refresh hash = some r) (hr' : s.store.refresh hash' = some r')
    (hu : r.usedAt = none) (hu' : r'.usedAt = none) (hfam : r.family = r'.family) :
    hash = hash' := by
  have hmem : Sum.inl hash ∈ issuers s.store s.requests r.family := ⟨r, hr, hu, rfl⟩
  have hmem' : Sum.inl hash' ∈ issuers s.store s.requests r.family := ⟨r', hr', hu', hfam.symm⟩
  exact Sum.inl.inj (h.issuers _ hmem hmem')

/-! ## Presenting a token of a revoked family -/

/-- Where a refresh grant can be that presented `token`, of a family that had been revoked. -/
def Phase.refused (token family : String) : Phase → Prop
  | .refreshing token' _ => token' = token
  | .reading family' _ _ _ => family' = family
  | .revoking _ _ => True
  | .retiring _ _ _ => True
  | .finished tokens => tokens = false
  | _ => False

theorem Call.refused {st st' : Store} (h : Call cfg now ok id st p st' p')
    (hp : p.refused token family) (hrev : ∀ f, st.families family = some f → f.revokedAt.isSome)
    (hfam : ∀ r, st.refresh token = some r → r.family = family) : p'.refused token family := by
  cases h with
  | use hr hu | reuse hr => obtain rfl : _ = token := hp; exact hfam _ hr
  | read hf hlive =>
    obtain rfl : _ = family := hp
    have hsome := hrev _ hf
    rw [hlive] at hsome
    cases hsome
  | revoke hq =>
    rcases hq with ⟨-, rfl⟩ | ⟨-, rfl⟩
    · exact rfl
    · trivial
  | refuse => exact rfl
  | stay => exact hp
  | suspect => trivial
  | retire => exact rfl
  | _ => cases hp

/-- Request `i` presented `token` of the family, which has been revoked. -/
structure Presented (token family : String) (i : Nat) (s : State) : Prop where
  ended : s.ended family = true
  drawn : token ∈ s.drawn
  ofFamily : ∀ r, s.store.refresh token = some r → r.family = family
  refused : ∃ p, s.requests[i]? = some p ∧ p.refused token family

theorem presented_step (hs : Sound s) (h : Presented token family i s) (hmove : Moves cfg s l t) :
    Presented token family i t := by
  obtain ⟨q, hq, href⟩ := h.refused
  cases hmove with
  | authorize => exact ⟨h.ended, .tail _ h.drawn, h.ofFamily, h.refused⟩
  | exchange => exact ⟨h.ended, .tail _ h.drawn, h.ofFamily, q, arrive_of hq, href⟩
  | arrive => exact ⟨h.ended, h.drawn, h.ofFamily, q, arrive_of hq, href⟩
  | @advance j now ok id p hj hnew =>
    have hcall := call_advance cfg now ok id s.store p
    refine ⟨ended_after h.ended, List.mem_append_right _ h.drawn, fun r' hr' => ?_, ?_⟩
    · rcases hcall.refresh hr' with ⟨r, hr, heq⟩ | hdraw
      · rw [heq]; exact h.ofFamily r hr
      · exact absurd h.drawn (hnew token hdraw)
    · by_cases hij : i = j
      · subst hij
        obtain rfl := Option.mem_unique hj hq
        exact ⟨_, move_self hj, hcall.refused href
          (fun f hf => hs.ended.revoked family f h.ended hf) h.ofFamily⟩
      · exact ⟨q, (List.getElem?_set_ne (Ne.symm hij)).trans hq, href⟩
  | cleanUp =>
    exact ⟨h.ended, h.drawn,
      fun r hr => h.ofFamily r (Option.filter_eq_some_iff.mp hr).1, h.refused⟩

/-- A request that presents a token of a revoked family is not answered with tokens. -/
theorem presented_not_answered (hs : Sound s) (he : s.ended r.family = true)
    (hi : s.requests[i]? = some (.refreshing token client)) (hr : s.store.refresh token = some r)
    (h : Run (step cfg) Margin s t) : t.requests[i]? ≠ some (.finished true) := by
  have hstart : Presented token r.family i s :=
    ⟨he, hs.drawn.refresh token r hr, fun r' hr' => by rw [Option.mem_unique hr hr'],
      _, hi, rfl⟩
  have hboth : Sound t ∧ Presented token r.family i t := by
    refine h.invariant (I := fun s => Sound s ∧ Presented token r.family i s) ?_ ⟨hs, hstart⟩
    rintro s l t ⟨hs, hp⟩ hm hstep
    have hmove := moves_step hstep
    exact ⟨sound_step hm hs hmove, presented_step hs hp hmove⟩
  obtain ⟨p, hp, href⟩ := hboth.2.refused
  intro hfin
  obtain rfl := Option.mem_unique hp hfin
  cases href

/-- When the requests that were under way have finished, the tokens of a revoked family are
retired. -/
theorem retired_when_finished (hs : Sound s) (he : s.ended family = true)
    (hdue : Due Set.univ family s) (h : Run (step cfg) Margin s t)
    (hfin : ∀ i < s.requests.length, ∃ tokens, t.requests[i]? = some (.finished tokens))
    (ha : (family, a) ∈ t.handed) : Retired t.store a := by
  have hstart : Due {i | i < s.requests.length} family s := by
    intro a ha
    rcases hdue a ha with hret | ⟨i, -, p, hp, hsettles⟩
    · exact .inl hret
    · exact .inr ⟨i, (List.getElem?_eq_some_iff.mp hp).1, p, hp, hsettles⟩
  have hboth : (Sound t ∧ t.ended family = true) ∧ Due {i | i < s.requests.length} family t := by
    refine h.invariant (I := fun t => (Sound t ∧ t.ended family = true) ∧
      Due {i | i < s.requests.length} family t) ?_ ⟨⟨hs, he⟩, hstart⟩
    rintro u l v ⟨⟨hu, he⟩, hdue⟩ hm hstep
    have hmove := moves_step hstep
    exact ⟨⟨sound_step hm hu hmove, ended_moves he hmove⟩, due_step hu he hdue hmove⟩
  rcases hboth.2 a ha with hret | ⟨i, hi, p, hp, hsettles⟩
  · exact hret
  · obtain ⟨tokens, hfin⟩ := hfin i hi
    obtain rfl := Option.mem_unique hp hfin
    cases hsettles

/-- Over every interleaving, a code creates at most one sign-in and a family has at most one unused
refresh token. While the clean-up keeps its margin, a request that presents a refresh token of a
revoked family is not answered with tokens, and when the requests that were under way have
finished, every access token ever handed out through the family is retired. -/
theorem sign_in_ends_for_good (h : Run (step cfg) Any .init s) :
    (s.created.map Prod.fst).Nodup ∧
      (∀ hash hash' r r', s.store.refresh hash = some r → s.store.refresh hash' = some r' →
        r.usedAt = none → r'.usedAt = none → r.family = r'.family → hash = hash') ∧
      ∀ family, Run (step cfg) Margin .init s → s.ended family = true →
        ∀ t, Run (step cfg) Margin s t →
          (∀ (i : Nat) (token client : String) (r : RefreshRow),
            s.requests[i]? = some (.refreshing token client) → s.store.refresh token = some r →
            r.family = family → t.requests[i]? ≠ some (.finished true)) ∧
          ((∀ i < s.requests.length, ∃ tokens, t.requests[i]? = some (.finished tokens)) →
            ∀ a, (family, a) ∈ t.handed → Retired t.store a) := by
  have hrights := rights_run h
  refine ⟨created_nodup hrights, fun hash hash' r r' hr hr' hu hu' hfam =>
    one_unused hrights hr hr' hu hu' hfam, fun family hrun he t hafter => ⟨?_, fun hfin a ha => ?_⟩⟩
  · intro i token client r hi hr hfam
    subst hfam
    exact presented_not_answered (sound_run hrun).1 he hi hr hafter
  · obtain ⟨hs, hdue⟩ := sound_run hrun
    exact retired_when_finished hs he (hdue family he) hafter hfin ha

def sampleConfig : Config := ⟨fun _ => 100000, fun _ => 1000000, fun _ _ => true⟩

/-- A sign-in, a refresh, and a replay of the refresh token that was used, up to the revocation;
meanwhile the new refresh token is presented. -/
def replayed : List Label :=
  [.authorize "code" ⟨"app", "acme", "user"⟩ 60, .exchange "code" "app" "family",
    .advance 0 1 true "", .advance 0 1 true "", .advance 0 1 true "access",
    .advance 0 1 true "refresh", .advance 0 1 true "",
    .refresh "refresh" "app", .advance 1 2 true "", .advance 1 2 true "", .advance 1 2 true "",
    .advance 1 2 true "access2", .advance 1 2 true "refresh2", .advance 1 2 true "",
    .refresh "refresh" "app", .advance 2 3 true "", .advance 2 3 true "", .advance 2 3 true "",
    .refresh "refresh2" "app"]

theorem sign_in_ends_for_good_replayed : ∃ s t : State, s.ended "family" = true ∧
    t.handed = [("family", "access"), ("family", "access2")] ∧
    (s.created.map Prod.fst).Nodup ∧ t.requests[3]? ≠ some (.finished true) ∧
    Retired t.store "access" ∧ Retired t.store "access2" := by
  obtain ⟨s, hrun, he, hi, hr, h⟩ := exists_run_guarded (step sampleConfig) Margin .init replayed
    (p := fun s => s.ended "family" = true ∧
      s.requests[3]? = some (.refreshing "refresh2" "app") ∧
      s.store.refresh "refresh2" = some ⟨"family", none⟩ ∧
      (exec (guarded (step sampleConfig) Margin) s
        [.advance 3 4 true "", .advance 3 4 true "", .advance 2 4 true "", .cleanUp 3]).any fun t =>
      decide ((∀ i < s.requests.length, ∃ b ∈ [true, false],
          t.requests[i]? = some (.finished b)) ∧
        t.handed = [("family", "access"), ("family", "access2")])) (by decide +kernel)
  obtain ⟨t, hafter, hfin, hhanded⟩ := exists_run_guarded _ _ s _ h
  obtain ⟨hnodup, -, hend⟩ := sign_in_ends_for_good (hrun.mono fun _ _ _ => trivial)
  obtain ⟨hrefused, hretired⟩ := hend "family" hrun he t hafter
  have hfin : ∀ i < s.requests.length, ∃ b, t.requests[i]? = some (.finished b) := by
    intro i hlt
    obtain ⟨b, -, hb⟩ := hfin i hlt
    exact ⟨b, hb⟩
  exact ⟨s, t, he, hhanded, hnodup, hrefused 3 _ _ _ hi hr rfl,
    hretired hfin "access" (by simp [hhanded]), hretired hfin "access2" (by simp [hhanded])⟩

/-- Without the margin: a replay of a code leaves a tombstone for the family its exchange has not
created yet, the clean-up removes it, and the exchange goes on. -/
theorem sign_in_outlives_revocation : ∃ s u t : State,
    Run (step sampleConfig) Any .init s ∧ s.ended "family" = true ∧
    Run (step sampleConfig) Any s u ∧ u.requests[2]? = some (.refreshing "refresh" "app") ∧
    u.store.refresh "refresh" = some ⟨"family", none⟩ ∧ Run (step sampleConfig) Any u t ∧
    t.requests = [.finished true, .finished false, .finished true] ∧
    ("family", "access") ∈ t.handed ∧
    (t.store.tokens "access").map TokenRow.retiredAt = some none := by
  obtain ⟨s, hs, he, h⟩ := exists_run (step sampleConfig) .init
    [.authorize "code" ⟨"app", "acme", "user"⟩ 60, .exchange "code" "app" "family",
      .advance 0 1 true "", .exchange "code" "app" "other", .advance 1 2 true "",
      .advance 1 2 true ""] (p := fun s => s.ended "family" = true ∧
    (exec (step sampleConfig) s
      [.advance 1 2 true "", .cleanUp 2, .advance 0 3602 true "", .advance 0 3602 true "access",
        .advance 0 3602 true "refresh", .advance 0 3602 true "",
        .refresh "refresh" "app"]).any fun u =>
    decide (u.requests[2]? = some (.refreshing "refresh" "app") ∧
      u.store.refresh "refresh" = some ⟨"family", none⟩ ∧
    (exec (step sampleConfig) u
      [.advance 2 3603 true "", .advance 2 3603 true "", .advance 2 3603 true "",
        .advance 2 3603 true "access2", .advance 2 3603 true "refresh2",
        .advance 2 3603 true ""]).any fun t =>
    decide (t.requests = [.finished true, .finished false, .finished true] ∧
      ("family", "access") ∈ t.handed ∧
      (t.store.tokens "access").map TokenRow.retiredAt = some none))) (by decide +kernel)
  obtain ⟨u, hu, hi, hr, h⟩ := exists_run _ s _ h
  obtain ⟨t, ht, hreq, hhanded, hlive⟩ := exists_run _ u _ h
  exact ⟨s, u, t, hs, he, hu, hi, hr, ht, hreq, hhanded, hlive⟩

end Loomcycle.OAuth
