import Loomcycle.Lib.Transition
import Loomcycle.OAuth.Store

/-! The requests of app sign-ins, each a sequence of store calls between which any other request,
on any replica, may run. -/

namespace Loomcycle.OAuth

/-- What a request reads of its client's definition. -/
structure Config where
  refreshIdle : String → Instant
  refreshAbs : String → Instant
  servesTenant : String → String → Bool

/-- Where a request is: the store call it makes next, with what it has read so far. -/
inductive Phase
  /-- A code grant, before `OAuthCodeConsume`. -/
  | consuming (code client family : String)
  /-- Its checks passed; before `OAuthFamilyCreate`. -/
  | creating (code family : String) (owner : Owner) (now : Instant)
  /-- A refresh grant, before `OAuthRefreshUse`. -/
  | refreshing (token client : String)
  /-- Before `OAuthFamilyGet`, with what the use answered. -/
  | reading (family client : String) (first : Bool) (now : Instant)
  | touching (family : String) (owner : Owner) (absoluteExpiresAt now : Instant)
  /-- In `oauthIssue`, before the access token is minted. -/
  | minting (family : String) (owner : Owner)
  /-- Before `OAuthRefreshCreate`. -/
  | storing (family : String) (owner : Owner) (token : String)
  /-- Before the family is read again. -/
  | rereading (family : String) (owner : Owner) (token : String)
  /-- In `revokeAppFamily` or `revokeAppFamilyForReuse`. -/
  | revoking (client family : String)
  | retiring (client family : String) (now : Instant)
  /-- A revocation of a refresh token by its app: before it is read, then before its family is. -/
  | lookingUp (token client : String)
  | checking (family client : String)
  /-- A revocation of an access token by its app. -/
  | lookingUpAccess (token client : String)
  | retiringAccess (token : String)
  /-- A change of a client's definition: before its codes are voided. -/
  | voidingCodes (client : String)
  /-- `endClientSignIns`: a client's codes, its families, its tokens. -/
  | clientCodes (client : String) (now : Instant)
  | clientFamilies (client : String) (now : Instant)
  | clientTokens (client : String) (now : Instant)
  /-- `endSubjectAppSignIns`. -/
  | subjectFamilies (tenant subject : String) (now : Instant)
  | subjectTokens (tenant subject : String) (now : Instant)
  /-- Answered, with tokens or not. -/
  | finished (tokens : Bool)
deriving DecidableEq

/-- `revokeAppFamily` up to its first store call. -/
def revokeAppFamily (client family : String) : Phase :=
  if family = "" then .finished false else .revoking client family

/-- When the refresh of a family stops working. -/
def appFamilyExpiresAt (cfg : Config) (f : FamilyRow) (client : String) : Instant :=
  min (min f.absoluteExpiresAt f.idleExpiresAt)
    (min (f.createdAt + cfg.refreshAbs client) (f.lastUsedAt + cfg.refreshIdle client))

/-- The family a code grant creates. -/
def newFamily (cfg : Config) (owner : Owner) (now : Instant) : FamilyRow :=
  ⟨owner, now, now, now + cfg.refreshIdle owner.client, now + cfg.refreshAbs owner.client, none⟩

/-- One store call of a request and where it goes from there. `ok` stands for the checks on what
is not modelled (redirect URI, PKCE, the approving session; the user and the gate when a token is
minted; an access token's own expiry), `id` for an identifier drawn at random, `now` for the clock
where the request reads it before this call. -/
def advance (cfg : Config) (now : Instant) (ok : Bool) (id : String) (st : Store) :
    Phase → Store × Phase
  | .consuming code client family =>
    match oauthCodeConsume st code family now with
    | none => (st, .finished false)
    | some (st, c, false) => (st, revokeAppFamily c.owner.client c.family)
    | some (st, c, true) =>
      if c.owner.client = client ∧ now < c.expiresAt ∧
          cfg.servesTenant client c.owner.tenant ∧ ok then
        (st, .creating code family c.owner now)
      else (st, .finished false)
  | .creating _ family owner now =>
    match oauthFamilyCreate st family (newFamily cfg owner now) with
    | none => (st, .finished false)
    | some st => (st, .minting family owner)
  | .refreshing token client =>
    match oauthRefreshUse st token now with
    | none => (st, .finished false)
    | some (st, r, first) => (st, .reading r.family client first now)
  | .reading family client first now =>
    match st.families family with
    | none => (st, .finished false)
    | some f =>
      if f.owner.client ≠ client ∨ ¬ first then (st, revokeAppFamily f.owner.client family)
      else if f.revokedAt.isSome ∨ ¬ now < appFamilyExpiresAt cfg f client ∨
          ¬ cfg.servesTenant client f.owner.tenant then (st, .finished false)
      else (st, .touching family f.owner f.absoluteExpiresAt now)
  | .touching family owner absoluteExpiresAt now =>
    (oauthFamilyTouch st family now (min (now + cfg.refreshIdle owner.client) absoluteExpiresAt),
      .minting family owner)
  | .minting family owner =>
    if ok then (operatorTokenDefCreate st id owner family, .storing family owner id)
    else (st, .finished false)
  | .storing family owner token => (oauthRefreshCreate st id family, .rereading family owner token)
  | .rereading family owner _ =>
    match st.families family with
    | some f =>
      if f.revokedAt.isSome then (st, revokeAppFamily owner.client family) else (st, .finished true)
    | none => (st, revokeAppFamily owner.client family)
  | .revoking client family =>
    (oauthFamilyRevoke st family now,
      if client = "" then .finished false else .retiring client family now)
  | .retiring client family now => (oauthTokenRetire st client family now, .finished false)
  | .lookingUp token client =>
    match st.refresh token with
    | none => (st, .finished false)
    | some r => (st, .checking r.family client)
  | .checking family client =>
    match st.families family with
    | none => (st, .finished false)
    | some f =>
      if f.owner.client = client then (st, revokeAppFamily client family)
      else (st, .finished false)
  | .lookingUpAccess token client =>
    match st.tokens token with
    | none => (st, .finished false)
    | some t =>
      if t.owner.client = client ∧ t.retiredAt.all (now < ·) ∧ ok then
        (st, .retiringAccess token)
      else (st, .finished false)
  | .retiringAccess token =>
    (operatorTokenDefSetRetiredAt st token now, .finished false)
  | .voidingCodes client => (oauthCodeInvalidateClient st client now, .finished false)
  | .clientCodes client now =>
    (oauthCodeInvalidateClient st client now, .clientFamilies client now)
  | .clientFamilies client now =>
    (oauthFamilyRevokeClient st client now, .clientTokens client now)
  | .clientTokens client now => (oauthTokenRetire st client "" now, .finished false)
  | .subjectFamilies tenant subject now =>
    (oauthFamilyRevokeSubject st tenant subject now, .subjectTokens tenant subject now)
  | .subjectTokens tenant subject now =>
    (oauthTokenRetireEndedSignIns st tenant subject now, .finished false)
  | .finished tokens => (st, .finished tokens)

/-! ## What is recorded beside the store -/

/-- The family, with the owner of its code, that a code grant stamps on its code. -/
def Phase.stamps (st : Store) : Phase → Option (String × Owner)
  | .consuming code _ family =>
    match st.codes code with
    | some c => if c.consumedAt.isSome then none else some (family, c.owner)
    | none => none
  | _ => none

/-- The code and the family, when the grant creates its sign-in. -/
def Phase.creates (st : Store) : Phase → List (String × String)
  | .creating code family _ _ => if (st.families family).isNone then [(code, family)] else []
  | _ => []

/-- The family and the access token, when the request is answered with tokens. -/
def Phase.hands (st : Store) : Phase → List (String × String)
  | .rereading family _ token =>
    if (st.families family).any (·.revokedAt.isNone) then [(family, token)] else []
  | _ => []

/-- The families a request revokes. -/
def Phase.ends (st : Store) : Phase → String → Bool
  | .revoking _ family, id => id = family
  | .clientFamilies client _, id => (st.families id).any fun f => f.owner.client = client
  | .subjectFamilies tenant subject _, id =>
    (st.families id).any fun f => f.owner.tenant = tenant && f.owner.subject = subject
  | _, _ => false

/-- The identifiers the step draws. -/
def Phase.draws (ok : Bool) (id : String) : Phase → List String
  | .minting .. => if ok then [id] else []
  | .storing .. => [id]
  | _ => []

/-- The store, the requests that ever came, and the record: the identifiers drawn, the owners of
stamped families, the families created, the access tokens handed out, the families revoked. -/
structure State where
  store : Store
  requests : List Phase
  drawn : List String
  owners : String → Option Owner
  created : List (String × String)
  handed : List (String × String)
  ended : String → Bool

def State.init : State := ⟨.empty, [], [], fun _ => none, [], [], fun _ => false⟩

inductive Label
  /-- A person approves a sign-in: a code is issued. -/
  | authorize (code : String) (owner : Owner) (expiresAt : Instant)
  | exchange (code client family : String)
  | refresh (token client : String)
  | revoke (token client : String)
  | revokeAccess (token client : String)
  | changeClient (client : String)
  | endClient (client : String) (now : Instant)
  | endSubject (tenant subject : String) (now : Instant)
  /-- The next store call of a request. -/
  | advance (i : Nat) (now : Instant) (ok : Bool) (id : String)
  /-- `OAuthDeleteExpired`. -/
  | cleanUp (before : Instant)

def State.arrive (s : State) (p : Phase) : State := { s with requests := s.requests ++ [p] }

def recordOwner (owners : String → Option Owner) : Option (String × Owner) → String → Option Owner
  | some (family, owner) => Function.update owners family (some owner)
  | none => owners

/-- The state after request `i`, at `p`, made its next store call. -/
def State.after (cfg : Config) (s : State) (i : Nat) (now : Instant) (ok : Bool) (id : String)
    (p : Phase) : State where
  store := (OAuth.advance cfg now ok id s.store p).1
  requests := s.requests.set i (OAuth.advance cfg now ok id s.store p).2
  drawn := p.draws ok id ++ s.drawn
  owners := recordOwner s.owners (p.stamps s.store)
  created := s.created ++ p.creates s.store
  handed := s.handed ++ p.hands s.store
  ended := fun family => s.ended family || p.ends s.store family

/-- Identifiers are drawn anew: a code, a family id or a token hash never comes twice. -/
def step (cfg : Config) (s : State) : Label → Option State
  | .authorize code owner expiresAt =>
    if code ∈ s.drawn ∨ owner.client = "" ∨ owner.tenant = "" ∨ owner.subject = "" then none
    else some { s with
      store := oauthCodeCreate s.store code owner expiresAt, drawn := code :: s.drawn }
  | .exchange code client family =>
    if family ∈ s.drawn ∨ family = "" then none
    else some { s.arrive (.consuming code client family) with drawn := family :: s.drawn }
  | .refresh token client => some (s.arrive (.refreshing token client))
  | .revoke token client => some (s.arrive (.lookingUp token client))
  | .revokeAccess token client => some (s.arrive (.lookingUpAccess token client))
  | .changeClient client => some (s.arrive (.voidingCodes client))
  | .endClient client now => some (s.arrive (.clientCodes client now))
  | .endSubject tenant subject now => some (s.arrive (.subjectFamilies tenant subject now))
  | .advance i now ok id =>
    match s.requests[i]? with
    | none => none
    | some p => if ∃ x ∈ p.draws ok id, x ∈ s.drawn then none else some (s.after cfg i now ok id p)
  | .cleanUp before => some { s with store := oauthDeleteExpired s.store before }

end Loomcycle.OAuth
