import Mathlib.Logic.Function.Basic

/-! The store of app sign-ins: authorization codes, refresh-token families, their refresh tokens,
and the access tokens issued through them. Each call is one transaction. -/

namespace Loomcycle.OAuth

abbrev Instant := Int

/-- Whose sign-in a row belongs to. -/
structure Owner where
  client : String
  tenant : String
  subject : String
deriving DecidableEq

structure CodeRow where
  owner : Owner
  expiresAt : Instant
  consumedAt : Option Instant
  /-- Empty until the code is consumed. -/
  family : String
deriving DecidableEq

structure FamilyRow where
  owner : Owner
  createdAt : Instant
  lastUsedAt : Instant
  idleExpiresAt : Instant
  absoluteExpiresAt : Instant
  revokedAt : Option Instant
deriving DecidableEq

structure RefreshRow where
  family : String
  usedAt : Option Instant
deriving DecidableEq

/-- A row of `operator_token_defs` issued to an app. -/
structure TokenRow where
  owner : Owner
  family : String
  retiredAt : Option Instant
deriving DecidableEq

/-- The tables, by primary key: code hash, family id, refresh token hash, definition id. -/
structure Store where
  codes : String → Option CodeRow
  families : String → Option FamilyRow
  refresh : String → Option RefreshRow
  tokens : String → Option TokenRow

def Store.empty : Store := ⟨fun _ => none, fun _ => none, fun _ => none, fun _ => none⟩

def oauthCodeCreate (st : Store) (hash : String) (owner : Owner) (expiresAt : Instant) : Store :=
  { st with codes := Function.update st.codes hash (some ⟨owner, expiresAt, none, ""⟩) }

/-- The row as it is afterwards and whether this call consumed it. -/
def oauthCodeConsume (st : Store) (hash family : String) (now : Instant) :
    Option (Store × CodeRow × Bool) :=
  match st.codes hash with
  | none => none
  | some c =>
    if c.consumedAt.isSome then some (st, c, false)
    else
      let c := { c with consumedAt := some now, family }
      some ({ st with codes := Function.update st.codes hash (some c) }, c, true)

def oauthCodeInvalidateClient (st : Store) (client : String) (now : Instant) : Store :=
  { st with
    codes := fun hash => (st.codes hash).map fun c =>
      if c.owner.client = client ∧ c.consumedAt.isNone then { c with consumedAt := some now }
      else c }

/-- `none` is `ErrConflict`: a row of that id is there, a tombstone included. -/
def oauthFamilyCreate (st : Store) (id : String) (row : FamilyRow) : Option Store :=
  match st.families id with
  | some _ => none
  | none => some { st with families := Function.update st.families id (some row) }

def oauthFamilyTouch (st : Store) (id : String) (lastUsedAt idleExpiresAt : Instant) : Store :=
  { st with
    families := Function.update st.families id ((st.families id).map fun f =>
      if f.revokedAt.isNone then { f with lastUsedAt, idleExpiresAt } else f) }

/-- The row of a family that was revoked before it was created. -/
def tombstone (now : Instant) : FamilyRow := ⟨⟨"", "", ""⟩, now, now, now, now, some now⟩

/-- The revoked row of a family: as it was if it is revoked already, a tombstone if there is
none. -/
def revoked (now : Instant) : Option FamilyRow → FamilyRow
  | some f => if f.revokedAt.isSome then f else { f with revokedAt := some now }
  | none => tombstone now

/-- `OAuthFamilyRevoke` and `OAuthFamilyRevokeForReuse`: the second differs in the reason it
records and in what it counts as first. -/
def oauthFamilyRevoke (st : Store) (id : String) (now : Instant) : Store :=
  { st with families := Function.update st.families id (some (revoked now (st.families id))) }

/-- Revokes the live families of the owners `p` takes. -/
def revokeFamiliesWhere (st : Store) (p : Owner → Bool) (now : Instant) : Store :=
  { st with
    families := fun id => (st.families id).map fun f =>
      if p f.owner then revoked now (some f) else f }

def oauthFamilyRevokeClient (st : Store) (client : String) (now : Instant) : Store :=
  revokeFamiliesWhere st (fun o => o.client = client) now

def oauthFamilyRevokeSubject (st : Store) (tenant subject : String) (now : Instant) : Store :=
  revokeFamiliesWhere st (fun o => o.tenant = tenant && o.subject = subject) now

def oauthRefreshCreate (st : Store) (hash family : String) : Store :=
  { st with refresh := Function.update st.refresh hash (some ⟨family, none⟩) }

/-- The row and whether this call was its first use. -/
def oauthRefreshUse (st : Store) (hash : String) (now : Instant) :
    Option (Store × RefreshRow × Bool) :=
  match st.refresh hash with
  | none => none
  | some r =>
    if r.usedAt.isSome then some (st, r, false)
    else
      let r := { r with usedAt := some now }
      some ({ st with refresh := Function.update st.refresh hash (some r) }, r, true)

/-- `OperatorTokenDefCreate`, for an app's token. -/
def operatorTokenDefCreate (st : Store) (id : String) (owner : Owner) (family : String) : Store :=
  { st with tokens := Function.update st.tokens id (some ⟨owner, family, none⟩) }

def operatorTokenDefSetRetiredAt (st : Store) (id : String) (now : Instant) : Store :=
  { st with
    tokens := Function.update st.tokens id
      ((st.tokens id).map fun t => { t with retiredAt := some now }) }

/-- Retires at `now` the live access tokens `p` takes. -/
def retireWhere (st : Store) (p : TokenRow → Bool) (now : Instant) : Store :=
  { st with
    tokens := fun id => (st.tokens id).map fun t =>
      if p t ∧ t.retiredAt.all (now < ·) then { t with retiredAt := some now } else t }

/-- The tokens of a client, of one family unless `family` is empty. -/
def oauthTokenRetire (st : Store) (client family : String) (now : Instant) : Store :=
  retireWhere st (fun t => t.owner.client = client && (family = "" || t.family = family)) now

/-- The subject's app tokens whose family is revoked or gone. -/
def oauthTokenRetireEndedSignIns (st : Store) (tenant subject : String) (now : Instant) : Store :=
  retireWhere st (fun t => t.owner.tenant = tenant && t.owner.subject = subject &&
    t.owner.client ≠ "" && (st.families t.family).all (·.revokedAt.isSome)) now

/-- Whether the clean-up up to `before` removes the family. -/
def FamilyRow.dead (before : Instant) (f : FamilyRow) : Bool :=
  f.absoluteExpiresAt ≤ before || f.revokedAt.any (· ≤ before)

/-- Removes expired codes, dead families and the refresh tokens of these. -/
def oauthDeleteExpired (st : Store) (before : Instant) : Store :=
  { st with
    codes := fun hash => (st.codes hash).filter fun c => ¬ c.expiresAt ≤ before
    families := fun id => (st.families id).filter fun f => ¬ f.dead before
    refresh := fun hash => (st.refresh hash).filter fun r =>
      ¬ (st.families r.family).any (·.dead before) }

end Loomcycle.OAuth
