import Loomcycle.Lib.Partial
import Loomcycle.Lib.Pool
import Loomcycle.OAuth.Requests

/-! What one step can do: to each table, to where a request is, and to the record. Everything
proved about runs is derived from these. -/

namespace Loomcycle.OAuth
open Lib.Partial

variable {cfg : Config} {now : Instant} {ok : Bool} {id : String} {st : Store} {p : Phase}

/-! ## Where a request is -/

/-- The family whose next refresh token the request has the right to issue. -/
def Phase.issues : Phase → Option String
  | .consuming _ _ family => some family
  | .creating _ family _ _ => some family
  | .reading family _ first _ => if first then some family else none
  | .touching family _ _ _ => some family
  | .minting family _ => some family
  | .storing family _ _ => some family
  | _ => none

/-- The code whose sign-in the request has the right to create. -/
def Phase.exchanges : Phase → Option String
  | .creating code _ _ _ => some code
  | _ => none

/-- The family the request issues tokens of, with its owner as the request read it. -/
def Phase.grants : Phase → Option (String × Owner)
  | .creating _ family owner _ => some (family, owner)
  | .touching family owner _ _ => some (family, owner)
  | .minting family owner => some (family, owner)
  | .storing family owner _ => some (family, owner)
  | .rereading family owner _ => some (family, owner)
  | _ => none

/-- The client and the family the request is revoking. -/
def Phase.revokes : Phase → Option (String × String)
  | .revoking client family => some (client, family)
  | .retiring client family _ => some (client, family)
  | _ => none

/-- The family and the access token the request has minted in it. -/
def Phase.carries : Phase → Option (String × String)
  | .storing family _ token => some (family, token)
  | .rereading family _ token => some (family, token)
  | _ => none

/-! ## What one call can do -/

/-- The calls a request makes from `p`: what becomes of the store and where the request goes. A
refusal, and an answer that changes nothing, leave the store and the record as they are. -/
inductive Call (cfg : Config) (now : Instant) (ok : Bool) (id : String) (st : Store) :
    Phase → Store → Phase → Prop
  | refuse {p : Phase} (hends : ∀ family, p.ends st family = false) (hstamps : p.stamps st = none)
      (hcreates : p.creates st = []) : Call cfg now ok id st p st (.finished false)
  | stay (tokens : Bool) : Call cfg now ok id st (.finished tokens) st (.finished tokens)
  | consume {code client family : String} {c : CodeRow} {q : Phase} (hc : st.codes code = some c)
      (hu : c.consumedAt = none)
      (hq : q = .creating code family c.owner now ∨ q = .finished false) :
      Call cfg now ok id st (.consuming code client family)
        { st with
          codes := Function.update st.codes code (some { c with consumedAt := some now, family }) }
        q
  | replay {code client family : String} {c : CodeRow} (hc : st.codes code = some c)
      (hu : c.consumedAt.isSome) (hne : c.family ≠ "") :
      Call cfg now ok id st (.consuming code client family) st (.revoking c.owner.client c.family)
  | create {code family : String} {owner : Owner} {start : Instant}
      (hnone : st.families family = none) :
      Call cfg now ok id st (.creating code family owner start)
        { st with
          families := Function.update st.families family (some (newFamily cfg owner start)) }
        (.minting family owner)
  | use {token client : String} {r : RefreshRow} (hr : st.refresh token = some r)
      (hu : r.usedAt = none) :
      Call cfg now ok id st (.refreshing token client)
        { st with
          refresh := Function.update st.refresh token (some { r with usedAt := some now }) }
        (.reading r.family client true now)
  | reuse {token client : String} {r : RefreshRow} (hr : st.refresh token = some r) :
      Call cfg now ok id st (.refreshing token client) st (.reading r.family client false now)
  | suspect {family client : String} {first : Bool} {start : Instant} {f : FamilyRow}
      (hf : st.families family = some f) :
      Call cfg now ok id st (.reading family client first start) st
        (.revoking f.owner.client family)
  | read {family client : String} {start : Instant} {f : FamilyRow}
      (hf : st.families family = some f) (hlive : f.revokedAt = none) :
      Call cfg now ok id st (.reading family client true start) st
        (.touching family f.owner f.absoluteExpiresAt start)
  | touch {family : String} {owner : Owner} {absolute start : Instant} (idle : Instant) :
      Call cfg now ok id st (.touching family owner absolute start)
        (oauthFamilyTouch st family start idle) (.minting family owner)
  | mint {family : String} {owner : Owner} (hok : ok = true) :
      Call cfg now ok id st (.minting family owner) (operatorTokenDefCreate st id owner family)
        (.storing family owner id)
  | store {family token : String} {owner : Owner} :
      Call cfg now ok id st (.storing family owner token) (oauthRefreshCreate st id family)
        (.rereading family owner token)
  | answer {family token : String} {owner : Owner} {f : FamilyRow}
      (hf : st.families family = some f) (hlive : f.revokedAt = none) :
      Call cfg now ok id st (.rereading family owner token) st (.finished true)
  | undo {family token : String} {owner : Owner} :
      Call cfg now ok id st (.rereading family owner token) st (.revoking owner.client family)
  | revoke {client family : String} {q : Phase}
      (hq : client = "" ∧ q = .finished false ∨ client ≠ "" ∧ q = .retiring client family now) :
      Call cfg now ok id st (.revoking client family) (oauthFamilyRevoke st family now) q
  | retire {client family : String} {start : Instant} :
      Call cfg now ok id st (.retiring client family start)
        (oauthTokenRetire st client family start) (.finished false)
  | lookUp {token client : String} {r : RefreshRow} (hr : st.refresh token = some r) :
      Call cfg now ok id st (.lookingUp token client) st (.checking r.family client)
  | check {family : String} {f : FamilyRow} (hf : st.families family = some f) :
      Call cfg now ok id st (.checking family f.owner.client) st (.revoking f.owner.client family)
  | lookUpAccess {token client : String} :
      Call cfg now ok id st (.lookingUpAccess token client) st (.retiringAccess token)
  | retireAccess {token : String} :
      Call cfg now ok id st (.retiringAccess token) (operatorTokenDefSetRetiredAt st token now)
        (.finished false)
  | void {client : String} :
      Call cfg now ok id st (.voidingCodes client) (oauthCodeInvalidateClient st client now)
        (.finished false)
  | clientCodes {client : String} {start : Instant} :
      Call cfg now ok id st (.clientCodes client start) (oauthCodeInvalidateClient st client start)
        (.clientFamilies client start)
  | clientFamilies {client : String} {start : Instant} :
      Call cfg now ok id st (.clientFamilies client start) (oauthFamilyRevokeClient st client start)
        (.clientTokens client start)
  | clientTokens {client : String} {start : Instant} :
      Call cfg now ok id st (.clientTokens client start) (oauthTokenRetire st client "" start)
        (.finished false)
  | subjectFamilies {tenant subject : String} {start : Instant} :
      Call cfg now ok id st (.subjectFamilies tenant subject start)
        (oauthFamilyRevokeSubject st tenant subject start) (.subjectTokens tenant subject start)
  | subjectTokens {tenant subject : String} {start : Instant} :
      Call cfg now ok id st (.subjectTokens tenant subject start)
        (oauthTokenRetireEndedSignIns st tenant subject start) (.finished false)

section

variable (cfg now ok id st)

/-- What a request does from `p` is one of its calls. -/
def Calls (p : Phase) : Prop :=
  Call cfg now ok id st p (advance cfg now ok id st p).1 (advance cfg now ok id st p).2

theorem call_consuming (code client family : String) :
    Calls cfg now ok id st (.consuming code client family) := by
  have hends : ∀ family', (Phase.consuming code client family).ends st family' = false :=
    fun _ => rfl
  cases hc : st.codes code with
  | none =>
    simp only [Calls, advance, oauthCodeConsume, hc]
    exact .refuse hends (by simp only [Phase.stamps, hc]) rfl
  | some c =>
    cases hu : c.consumedAt with
    | none =>
      simp only [Calls, advance, oauthCodeConsume, hc, hu, Option.isSome_none, Bool.false_eq_true,
        if_false]
      split
      · exact .consume hc hu (.inl rfl)
      · exact .consume hc hu (.inr rfl)
    | some t =>
      have hsome : c.consumedAt.isSome := by rw [hu]; rfl
      simp only [Calls, advance, oauthCodeConsume, hc, hsome, if_true, revokeAppFamily]
      split
      · exact .refuse hends (by simp only [Phase.stamps, hc, hsome, if_true]) rfl
      · next hne => exact .replay hc hsome hne

theorem call_refreshing (token client : String) :
    Calls cfg now ok id st (.refreshing token client) := by
  cases hr : st.refresh token with
  | none =>
    simp only [Calls, advance, oauthRefreshUse, hr]
    exact .refuse (fun _ => rfl) rfl rfl
  | some r =>
    cases hu : r.usedAt with
    | none =>
      simp only [Calls, advance, oauthRefreshUse, hr, hu, Option.isSome_none, Bool.false_eq_true,
        if_false]
      exact .use hr hu
    | some t =>
      have hsome : r.usedAt.isSome := by rw [hu]; rfl
      simp only [Calls, advance, oauthRefreshUse, hr, hsome, if_true]
      exact .reuse hr

theorem call_reading (family client : String) (first : Bool) (start : Instant) :
    Calls cfg now ok id st (.reading family client first start) := by
  cases hf : st.families family with
  | none =>
    simp only [Calls, advance, hf]
    exact .refuse (fun _ => rfl) rfl rfl
  | some f =>
    simp only [Calls, advance, hf]
    split
    · unfold revokeAppFamily
      split
      · exact .refuse (fun _ => rfl) rfl rfl
      · exact .suspect hf
    next hfirst =>
    have hfirst : first = true := by
      cases first with
      | true => rfl
      | false => exact absurd (.inr (by simp)) hfirst
    subst hfirst
    split
    · exact .refuse (fun _ => rfl) rfl rfl
    · next hlive => exact .read hf (by simpa using fun h => hlive (.inl h))

theorem call_advance (p : Phase) :
    Call cfg now ok id st p (advance cfg now ok id st p).1 (advance cfg now ok id st p).2 := by
  cases p with
  | consuming code client family => exact call_consuming ..
  | refreshing token client => exact call_refreshing ..
  | reading family client first start => exact call_reading ..
  | creating code family owner start =>
    cases hf : st.families family with
    | none =>
      simp only [advance, oauthFamilyCreate, hf]
      exact .create hf
    | some f =>
      simp only [advance, oauthFamilyCreate, hf]
      exact .refuse (fun _ => rfl) rfl (by simp [Phase.creates, hf])
  | touching family owner absolute start => exact .touch _
  | minting family owner =>
    simp only [advance]
    split
    · next hok => exact .mint hok
    · exact .refuse (fun _ => rfl) rfl rfl
  | storing family owner token => exact .store
  | rereading family owner token =>
    cases hf : st.families family with
    | none =>
      simp only [advance, hf, revokeAppFamily]
      split
      · exact .refuse (fun _ => rfl) rfl rfl
      · exact .undo
    | some f =>
      simp only [advance, hf, revokeAppFamily]
      split
      · split
        · exact .refuse (fun _ => rfl) rfl rfl
        · exact .undo
      · next hlive => exact .answer hf (by simpa using hlive)
  | revoking client family =>
    simp only [advance]
    split
    · next heq => exact .revoke (.inl ⟨heq, rfl⟩)
    · next hne => exact .revoke (.inr ⟨hne, rfl⟩)
  | retiring client family start => exact .retire
  | lookingUp token client =>
    cases hr : st.refresh token with
    | none => simp only [advance, hr]; exact .refuse (fun _ => rfl) rfl rfl
    | some r => simp only [advance, hr]; exact .lookUp hr
  | checking family client =>
    cases hf : st.families family with
    | none => simp only [advance, hf]; exact .refuse (fun _ => rfl) rfl rfl
    | some f =>
      simp only [advance, hf, revokeAppFamily]
      split
      · next heq =>
        subst heq
        split
        · exact .refuse (fun _ => rfl) rfl rfl
        · exact .check hf
      · exact .refuse (fun _ => rfl) rfl rfl
  | lookingUpAccess token client =>
    simp only [advance]
    repeat' split
    all_goals first | exact .lookUpAccess | exact .refuse (fun _ => rfl) rfl rfl
  | retiringAccess token => exact .retireAccess
  | voidingCodes client => exact .void
  | clientCodes client start => exact .clientCodes
  | clientFamilies client start => exact .clientFamilies
  | clientTokens client start => exact .clientTokens
  | subjectFamilies tenant subject start => exact .subjectFamilies
  | subjectTokens tenant subject start => exact .subjectTokens
  | finished tokens => exact .stay tokens

end

/-! ## The tables -/

section Tables

variable {st' : Store} {p' : Phase}

/-- A refresh token stays with its family. -/
theorem Call.refresh {hash : String} {r' : RefreshRow} (h : Call cfg now ok id st p st' p')
    (hr' : st'.refresh hash = some r') :
    (∃ r, st.refresh hash = some r ∧ r'.family = r.family) ∨ hash ∈ p.draws ok id := by
  cases h with
  | @store family token owner =>
    obtain ⟨rfl, -⟩ | ⟨-, hr⟩ := of_update hr'
    · exact .inr (List.mem_singleton_self _)
    · exact .inl ⟨r', hr, rfl⟩
  | @use token client r hr hu =>
    obtain ⟨rfl, ⟨⟩⟩ | ⟨-, hr⟩ := of_update hr'
    · exact .inl ⟨r, hr, rfl⟩
    · exact .inl ⟨r', hr, rfl⟩
  | _ => exact .inl ⟨r', hr', rfl⟩

/-- A token row is kept: it may be retired, and stays retired. -/
structure TokenRow.Kept (t t' : TokenRow) : Prop where
  owner : t'.owner = t.owner
  family : t'.family = t.family
  retired : t.retiredAt.isSome → t'.retiredAt.isSome

theorem TokenRow.Kept.refl (t : TokenRow) : t.Kept t := ⟨rfl, rfl, fun h => h⟩

theorem TokenRow.Kept.retire (t : TokenRow) (start : Instant) :
    t.Kept { t with retiredAt := some start } := ⟨rfl, rfl, fun _ => rfl⟩

theorem retireWhere_kept (st : Store) (q : TokenRow → Bool) (start : Instant) (a : String) :
    ∃ g : TokenRow → TokenRow, (∀ t : TokenRow, t.Kept (g t)) ∧
      (retireWhere st q start).tokens a = (st.tokens a).map g := by
  refine ⟨fun t => if q t ∧ t.retiredAt.all (start < ·) then { t with retiredAt := some start }
    else t, fun t => ?_, rfl⟩
  dsimp only
  split
  · exact .retire t start
  · exact .refl t

variable {a family code client : String} {start : Instant} {q : Owner → Bool} {f' : FamilyRow}
  {owner : Owner}

/-- The tokens a retirement takes are retired by it, or were before. -/
theorem retireWhere_retires {q : TokenRow → Bool} {t : TokenRow} (ht : st.tokens a = some t)
    (hq : q t = true) :
    ∃ t', (retireWhere st q start).tokens a = some t' ∧ t'.retiredAt.isSome := by
  have hrow := congrArg (Option.map fun t : TokenRow =>
    if q t ∧ t.retiredAt.all (start < ·) then { t with retiredAt := some start } else t) ht
  refine ⟨_, hrow, ?_⟩
  dsimp only
  split
  · rfl
  · next hnot =>
    cases hr : t.retiredAt with
    | some u => rfl
    | none => exact absurd ⟨hq, by rw [hr]; rfl⟩ hnot

section

variable (h : Call cfg now ok id st p st' p')
include h

/-- Access tokens are only ever retired. -/
theorem Call.tokens (ha : a ∉ p.draws ok id) :
    ∃ g : TokenRow → TokenRow, (∀ t : TokenRow, t.Kept (g t)) ∧
      st'.tokens a = (st.tokens a).map g := by
  have hsame : ∃ g : TokenRow → TokenRow, (∀ t : TokenRow, t.Kept (g t)) ∧
      st.tokens a = (st.tokens a).map g := ⟨fun t => t, .refl, by simp⟩
  cases h with
  | @mint family owner hok =>
    rw [Phase.draws, if_pos hok, List.mem_singleton] at ha
    simpa only [operatorTokenDefCreate, Function.update_of_ne ha] using hsame
  | retire | clientTokens | subjectTokens => exact retireWhere_kept ..
  | @retireAccess token =>
    by_cases heq : a = token
    · subst heq
      exact ⟨_, fun t => .retire t now, Function.update_self ..⟩
    · simpa only [operatorTokenDefSetRetiredAt, Function.update_of_ne heq] using hsame
  | _ => exact hsame

/-- A row under an identifier the step draws is the one the request mints. -/
theorem Call.minted {t' : TokenRow} (ht' : st'.tokens a = some t') (hnone : st.tokens a = none) :
    ∃ family owner, p = .minting family owner ∧ t' = ⟨owner, family, none⟩ := by
  by_cases ha : a ∈ p.draws ok id
  · cases h with
    | @mint family owner hok =>
      rw [Phase.draws, if_pos hok, List.mem_singleton] at ha
      simp only [operatorTokenDefCreate, ha, Function.update_self] at ht'
      exact ⟨_, _, rfl, (Option.some.inj ht').symm⟩
    | store | refuse => exact absurd (hnone.symm.trans ht') (by simp)
    | _ => simp [Phase.draws] at ha
  · obtain ⟨g, -, hg⟩ := h.tokens ha
    rw [hg, hnone] at ht'
    cases ht'

omit h in
theorem isSome_revoked (start : Instant) (o : Option FamilyRow) :
    (revoked start o).revokedAt.isSome := by
  cases o with
  | none => rfl
  | some f =>
    rw [revoked]
    split
    · next hsome => exact hsome
    · rfl

omit h in
theorem owner_revoked (start : Instant) (f : FamilyRow) :
    (revoked start (some f)).owner = f.owner := by
  rw [revoked]
  split <;> rfl

/-- A family row is new, as it was but for when it was used, or revoked by the call. -/
theorem Call.families (hf' : st'.families family = some f') :
    (∃ f, st.families family = some f ∧ f'.owner = f.owner ∧ f'.revokedAt = f.revokedAt) ∨
      (∃ code owner start, p = .creating code family owner start ∧
        st.families family = none ∧ f' = newFamily cfg owner start) ∨
      p.ends st family = true ∧ ∃ start, f' = revoked start (st.families family) := by
  cases h with
  | @create code family' owner start hnone =>
    obtain ⟨rfl, ⟨⟩⟩ | ⟨-, hf⟩ := of_update hf'
    · exact .inr (.inl ⟨_, _, _, rfl, hnone, rfl⟩)
    · exact .inl ⟨f', hf, rfl, rfl⟩
  | @touch family' owner absolute start idle =>
    obtain ⟨rfl, hnew⟩ | ⟨-, hf⟩ := of_update hf'
    · obtain ⟨f, hf, rfl⟩ := Option.map_eq_some_iff.mp hnew
      refine .inl ⟨f, hf, ?_⟩
      split <;> exact ⟨rfl, rfl⟩
    · exact .inl ⟨f', hf, rfl, rfl⟩
  | @revoke client family' q hq =>
    obtain ⟨rfl, ⟨⟩⟩ | ⟨-, hf⟩ := of_update hf'
    · exact .inr (.inr ⟨by simp [Phase.ends], now, rfl⟩)
    · exact .inl ⟨f', hf, rfl, rfl⟩
  | clientFamilies | subjectFamilies =>
    obtain ⟨f, hf, rfl⟩ := Option.map_eq_some_iff.mp hf'
    split
    · next hq => exact .inr (.inr ⟨by simp [Phase.ends, hf, hq], _, by rw [hf]⟩)
    · exact .inl ⟨f, hf, rfl, rfl⟩
  | _ => exact .inl ⟨f', hf', rfl, rfl⟩

theorem Call.families_isSome (hf : (st.families family).isSome) : (st'.families family).isSome := by
  cases h with
  | create => simp only [Function.update_apply]; split <;> simp [hf]
  | @touch family' =>
    simp only [oauthFamilyTouch, Function.update_apply]
    split
    · next heq => rw [Option.isSome_map, ← heq]; exact hf
    · exact hf
  | revoke => simp only [oauthFamilyRevoke, Function.update_apply]; split <;> simp [hf]
  | clientFamilies | subjectFamilies => exact (Option.isSome_map ..).trans hf
  | _ => exact hf

omit h in
theorem revokeFamiliesWhere_revokes (hq : ((st.families family).any fun f => q f.owner) = true) :
    ∃ f', (revokeFamiliesWhere st q start).families family = some f' ∧ f'.revokedAt.isSome := by
  obtain ⟨f, hf, hq⟩ := (Option.any_eq_true _ _).mp hq
  refine ⟨revoked start (some f), ?_, isSome_revoked ..⟩
  simp only [revokeFamiliesWhere, hf, Option.map_some]
  exact congrArg some (if_pos hq)

/-- A family the call ends is there afterwards, and revoked. -/
theorem Call.ends (he : p.ends st family = true) :
    ∃ f', st'.families family = some f' ∧ f'.revokedAt.isSome := by
  cases h with
  | refuse hends => rw [hends family] at he; cases he
  | @revoke client family' q hq =>
    have heq : family = family' := by simpa [Phase.ends] using he
    subst heq
    exact ⟨_, Function.update_self .., isSome_revoked ..⟩
  | clientFamilies | subjectFamilies => exact revokeFamiliesWhere_revokes he
  | _ => cases he

/-- A code row keeps its owner; once consumed it stays so; its family is set by the exchange that
consumes it. -/
theorem Call.codes {c' : CodeRow} (hc' : st'.codes code = some c') :
    ∃ c, st.codes code = some c ∧ c'.owner = c.owner ∧
      (c'.consumedAt = none → c.consumedAt = none) ∧
      (c'.family = c.family ∨ p.stamps st = some (c'.family, c.owner)) := by
  cases h with
  | @consume code' client family c q hc hu hq =>
    obtain ⟨rfl, ⟨⟩⟩ | ⟨-, hold⟩ := of_update hc'
    · refine ⟨c, hc, rfl, nofun, .inr ?_⟩
      simp [Phase.stamps, hc, hu]
    · exact ⟨c', hold, rfl, fun hu => hu, .inl rfl⟩
  | void | clientCodes =>
    obtain ⟨c, hc, rfl⟩ := Option.map_eq_some_iff.mp hc'
    refine ⟨c, hc, ?_⟩
    split
    · exact ⟨rfl, nofun, .inl rfl⟩
    · exact ⟨rfl, fun hu => hu, .inl rfl⟩
  | _ => exact ⟨c', hc', rfl, fun hu => hu, .inl rfl⟩

/-! ## Where the request goes -/

/-- The owner a request issues for is its own, that of the code it consumed, or that of the live
family it read. -/
theorem Call.grants (hp' : p'.grants = some (family, owner)) :
    p.grants = some (family, owner) ∨ p.stamps st = some (family, owner) ∨
      ∃ f, st.families family = some f ∧ f.revokedAt = none ∧ f.owner = owner := by
  cases h with
  | @consume code' client family c q hc hu hq =>
    rcases hq with rfl | rfl
    · cases hp'
      exact .inr (.inl (by simp [Phase.stamps, hc, hu]))
    · cases hp'
  | read hf hlive => cases hp'; exact .inr (.inr ⟨_, hf, hlive, rfl⟩)
  | revoke hq => rcases hq with ⟨-, rfl⟩ | ⟨-, rfl⟩ <;> cases hp'
  | _ => first | exact .inl hp' | cases hp'

/-- A family is revoked in the name of the owner of its code, of its row, or of the request that
was issuing its tokens. -/
theorem Call.revokes (hp' : p'.revokes = some (client, family)) :
    (∃ code c, st.codes code = some c ∧ c.family = family ∧ family ≠ "" ∧ c.owner.client = client) ∨
      (∃ f, st.families family = some f ∧ f.owner.client = client) ∨
      (∃ owner, p.grants = some (family, owner) ∧ owner.client = client) ∨
      p = .revoking client family ∧ client ≠ "" := by
  cases h with
  | @consume code' client family c q hc hu hq => rcases hq with rfl | rfl <;> cases hp'
  | replay hc hu hne => cases hp'; exact .inl ⟨_, _, hc, rfl, hne, rfl⟩
  | suspect hf | check hf => cases hp'; exact .inr (.inl ⟨_, hf, rfl⟩)
  | undo => cases hp'; exact .inr (.inr (.inl ⟨_, rfl, rfl⟩))
  | revoke hq =>
    rcases hq with ⟨-, rfl⟩ | ⟨hne, rfl⟩
    · cases hp'
    · cases hp'; exact .inr (.inr (.inr ⟨rfl, hne⟩))
  | _ => cases hp'

/-- The token a request carries is one it carried, or has just minted. -/
theorem Call.carries (hp' : p'.carries = some (family, a)) :
    p.carries = some (family, a) ∨ ∃ t, st'.tokens a = some t ∧ t.family = family := by
  cases h with
  | mint => cases hp'; exact .inr ⟨_, Function.update_self .., rfl⟩
  | consume hc hu hq => rcases hq with rfl | rfl <;> cases hp'
  | revoke hq => rcases hq with ⟨-, rfl⟩ | ⟨-, rfl⟩ <;> cases hp'
  | _ => first | exact .inl hp' | cases hp'

end

theorem Call.not_consuming (h : Call cfg now ok id st p st' (.consuming code client family)) :
    False := by
  cases h with
  | consume hc hu hq => rcases hq with hq | hq <;> cases hq
  | revoke hq => rcases hq with ⟨-, hq⟩ | ⟨-, hq⟩ <;> cases hq

theorem Call.creating (h : Call cfg now ok id st p st' (.creating code family owner start)) :
    ∃ client, p = .consuming code client family := by
  cases h with
  | consume hc hu hq =>
    rcases hq with hq | hq
    · cases hq; exact ⟨_, rfl⟩
    · cases hq
  | revoke hq => rcases hq with ⟨-, hq⟩ | ⟨-, hq⟩ <;> cases hq

theorem Call.retiring (h : Call cfg now ok id st p st' (.retiring client family start)) :
    client ≠ "" := by
  cases h with
  | consume hc hu hq => rcases hq with hq | hq <;> cases hq
  | revoke hq =>
    rcases hq with ⟨-, hq⟩ | ⟨hne, hq⟩
    · cases hq
    · cases hq; exact hne

/-! ## The record -/

theorem stamps_eq_some (h : p.stamps st = some (family, owner)) :
    ∃ code client c, p = .consuming code client family ∧ st.codes code = some c ∧
      c.owner = owner := by
  cases p with
  | consuming code client family' =>
    simp only [Phase.stamps] at h
    split at h
    · next c hc =>
      split at h
      · cases h
      · cases h; exact ⟨code, client, c, rfl, hc, rfl⟩
    · cases h
  | _ => cases h

theorem ends_eq_true (h : p.ends st family = true) :
    (∃ client, p = .revoking client family) ∨ (st.families family).isSome := by
  cases p with
  | revoking client family' =>
    have heq : family = family' := by simpa [Phase.ends] using h
    exact .inl ⟨client, by rw [heq]⟩
  | clientFamilies client start | subjectFamilies tenant subject start =>
    exact .inr (Option.isSome_of_any h)
  | _ => cases h

theorem mem_hands (h : (family, a) ∈ p.hands st) :
    p.carries = some (family, a) ∧ ∃ f, st.families family = some f ∧ f.revokedAt = none := by
  cases p with
  | rereading family' owner token =>
    simp only [Phase.hands] at h
    split at h
    · next hany =>
      obtain ⟨rfl, rfl⟩ := Prod.mk.inj (List.mem_singleton.mp h)
      obtain ⟨f, hf, hlive⟩ := (Option.any_eq_true _ _).mp hany
      exact ⟨rfl, f, hf, by simpa using hlive⟩
    · cases h
  | _ => cases h

end Tables

end Loomcycle.OAuth
