import Mathlib.Data.List.AList
import Loomcycle.AuditChain.Store
import Loomcycle.Lib.JsonText

/-! # The signed hash chain

`internal/auditchain/chain.go`. SHA-256 and HMAC are a parameter (`Crypto`): what a
result needs of them is a hypothesis of that result. -/

namespace Loomcycle.AuditChain.Chain
open Lib.Encoding Lib.JsonText AuditChain.Store

structure Crypto where
  sha256 : Bytes → Bytes
  hmacSHA256 : (key message : Bytes) → Bytes

/-- `"loomcycle-audit-v1"`, the first element of every canonical row. -/
def chainVersion : Bytes :=
  [108, 111, 111, 109, 99, 121, 99, 108, 101, 45, 97, 117, 100, 105, 116, 45, 118, 49]

example : chainVersion = ascii "loomcycle-audit-v1" := by decide

/-- The MAC domains `macRow`, `macHead` and `macAnchor`. -/
inductive MacDomain
  | row
  | head
  | anchor
  deriving DecidableEq, Repr

def MacDomain.text : MacDomain → Bytes
  | .row => [114, 111, 119]
  | .head => [104, 101, 97, 100]
  | .anchor => [97, 110, 99, 104, 111, 114]

/-- `Current` signs; `Previous` still verifies during a rotation. An empty key is
none. -/
structure ChainKeys where
  current : Bytes
  previous : Bytes
  deriving DecidableEq, Repr

def canonical (r : AuditEventRow) : Bytes :=
  lp [chainVersion, r.tenantID, formatInt r.seq, formatInt r.ts, r.actor, r.action, r.subject,
    r.payload]

section
variable (C : Crypto)

/-- `RowHash`. -/
def rowHash (prevHash : Bytes) (r : AuditEventRow) : Bytes :=
  hexEncode (C.sha256 (prevHash ++ canonical r))

/-- `chainMAC`; an anchor's state is its extra field, rows and heads have none. -/
def chainMAC (key : Bytes) (domain : MacDomain) (tenant : Bytes) (seq : Int) (hash : Bytes)
    (extra : List Bytes) : Bytes :=
  hexEncode (C.hmacSHA256 key (lp ([domain.text, tenant, formatInt seq, hash] ++ extra)))

def ChainKeys.sign (k : ChainKeys) (domain : MacDomain) (tenant : Bytes) (seq : Int) (hash : Bytes)
    (extra : List Bytes) : Bytes :=
  chainMAC C k.current domain tenant seq hash extra

/-- `signedBy`. -/
inductive SignedBy
  | none
  | current
  | previous
  deriving DecidableEq, Repr

/-- Which key a MAC verifies under. -/
def ChainKeys.which (k : ChainKeys) (mac : Bytes) (domain : MacDomain) (tenant : Bytes) (seq : Int)
    (hash : Bytes) (extra : List Bytes) : SignedBy :=
  if k.current ≠ [] ∧ mac = chainMAC C k.current domain tenant seq hash extra then .current
  else if k.previous ≠ [] ∧ mac = chainMAC C k.previous domain tenant seq hash extra then .previous
  else .none

def ChainKeys.check (k : ChainKeys) (mac : Bytes) (domain : MacDomain) (tenant : Bytes) (seq : Int)
    (hash : Bytes) (extra : List Bytes) : Bool :=
  k.which C mac domain tenant seq hash extra != .none

/-- `Seal`: hashes and signs a row numbered and linked by the store. -/
def ChainKeys.seal (k : ChainKeys) : AuditSealFunc := fun r =>
  if k.current = [] then .error "no audit chain key"
  else
    let hash := rowHash C r.prevHash r
    let r := { r with hash := hash, mac := k.sign C .row r.tenantID r.seq hash [] }
    .ok (r, k.sign C .head r.tenantID r.seq r.hash [])

end

/-! ## The anchor's state -/

/-- A Go map; a missing key reads as the zero value. -/
abbrev TenantCounts := AList fun _ : Bytes => Int

def TenantCounts.count (m : TenantCounts) (k : Bytes) : Int := (m.lookup k).getD 0

/-- `m[k] += n`. -/
def TenantCounts.add (m : TenantCounts) (k : Bytes) (n : Int) : TenantCounts := m.insert k (m.count k + n)

/-- `anchorState`: the openings of the operator chain before the anchor, and
whether a row up to it verified under the current key. -/
structure AnchorState where
  opened : TenantCounts := ∅
  rotated : Bool := false

/-- `"opened"` and `"rotated"`. -/
def openedName : Bytes := [111, 112, 101, 110, 101, 100]
def rotatedName : Bytes := [114, 111, 116, 97, 116, 101, 100]

/-- Byte order, in which the encoder writes map keys. -/
def bytesLe : Bytes → Bytes → Bool
  | [], _ => true
  | _ :: _, [] => false
  | a :: s, b :: t => a.toNat < b.toNat || (a.toNat == b.toNat && bytesLe s t)

def sortedEntries (m : TenantCounts) : List (Bytes × Int) :=
  (m.entries.map fun e => (e.1, e.2)).mergeSort fun a b => bytesLe a.1 b.1

/-- The value `json.Marshal` writes for a state: empty fields are left out. -/
def AnchorState.toJson (st : AnchorState) : Json :=
  .obj ((if st.opened.entries = [] then [] else
      [(openedName, .obj ((sortedEntries st.opened).map fun e => (e.1, .num (formatInt e.2))))]) ++
    (if st.rotated then [(rotatedName, .bool true)] else []))

/-- `json.Marshal` of a state. -/
def marshalAnchorState (st : AnchorState) : Bytes := render st.toJson

/-- ASCII lower case: a member is matched to a field whatever its case. -/
def lowerByte (b : UInt8) : UInt8 := if 65 ≤ b.toNat ∧ b.toNat ≤ 90 then b + 32 else b

def fieldName (k : Bytes) : Bytes := k.map lowerByte

/-- A map element: an integer in range, `null` for the zero value. -/
def countOfJson : Json → Option Int
  | .num text => match numInt text with
    | some n => if -2 ^ 63 ≤ n ∧ n < 2 ^ 63 then some n else none
    | none => none
  | .null => some 0
  | _ => none

def countsOfMembers (m : TenantCounts) : List (Bytes × Json) → Option TenantCounts
  | [] => some m
  | (k, v) :: rest => (countOfJson v).bind fun n => countsOfMembers (m.insert k n) rest

/-- One member of the object; a member that is neither field is skipped. -/
def stateOfMember (st : AnchorState) (k : Bytes) (v : Json) : Option AnchorState :=
  if fieldName k = openedName then
    match v with
    | .obj ms => (countsOfMembers st.opened ms).map fun m => { st with opened := m }
    | .null => some { st with opened := ∅ }
    | _ => none
  else if fieldName k = rotatedName then
    match v with
    | .bool b => some { st with rotated := b }
    | .null => some st
    | _ => none
  else some st

def stateOfMembers (st : AnchorState) : List (Bytes × Json) → Option AnchorState
  | [] => some st
  | (k, v) :: rest => (stateOfMember st k v).bind fun st => stateOfMembers st rest

/-- `decodeAnchorState`; none is a decoding error. -/
def decodeAnchorState (s : Bytes) : Option AnchorState :=
  if s = [] then some {}
  else match parse s with
    | some (.obj ms) => stateOfMembers {} ms
    | some .null => some {}
    | _ => none

section
variable (C : Crypto)

/-- `checkAnchor`: the state a chain's anchor carries, or why it does not hold. -/
def ChainKeys.checkAnchor (k : ChainKeys) (head : AuditHead) : Except String AnchorState :=
  if head.anchorSeq < 0 then .error "the retention anchor's position is negative"
  else if head.anchorSeq = 0 then
    if head.anchorHash ≠ [] ∨ head.anchorMAC ≠ [] ∨ head.anchorState ≠ [] then
      .error "the chain has no retention anchor but its anchor fields are set"
    else .ok {}
  else
    let by' := k.which C head.anchorMAC .anchor head.tenantID head.anchorSeq head.anchorHash
      [head.anchorState]
    if by' = .none then .error "the retention anchor's signature does not verify"
    else match decodeAnchorState head.anchorState with
      | none => .error "the retention anchor's state does not decode"
      | some st => .ok (if by' = .previous then { st with rotated := false } else st)

/-- `checkLink`: whether the row is row `want` after a row hashed `prev`, and the
rotation flag after it. -/
def ChainKeys.checkLink (k : ChainKeys) (tenant prev : Bytes) (want : Int) (row : AuditEventRow)
    (rotated : Bool) : Except String Bool :=
  if row.seq ≠ want then
    .error s!"row {want} is missing (the next row is {row.seq})"
  else if row.prevHash ≠ prev then .error s!"row {want} does not follow the row before it"
  else if rowHash C prev row ≠ row.hash then
    .error s!"row {want}'s content does not match its hash"
  else match k.which C row.mac .row tenant row.seq row.hash [] with
    | .current => .ok true
    | .previous =>
      if rotated then
        .error s!"row {want} is signed with the previous key after rows signed with the current one"
      else .ok false
    | .none => .error s!"row {want}'s signature does not verify"

/-- `"audit_chain_opened"`. -/
def actionChainOpened : Bytes :=
  [97, 117, 100, 105, 116, 95, 99, 104, 97, 105, 110, 95, 111, 112, 101, 110, 101, 100]

example : actionChainOpened = ascii "audit_chain_opened" := by decide

/-- `ErrChainBroken`, with what it wraps. -/
def errChainBroken (why : String) : String := "audit: the chain does not verify: " ++ why

/-- Where the seal's loop over the pruned rows stands. -/
structure SealLoop where
  link : Bytes
  want : Int
  rotated : Bool
  opened : TenantCounts

/-- The loop of `SealAnchor` over the pruned rows. -/
def ChainKeys.sealRows (k : ChainKeys) (tenant : Bytes) :
    SealLoop → List AuditEventRow → Except String SealLoop
  | l, [] => .ok l
  | l, r :: rows => match k.checkLink C tenant l.link l.want r l.rotated with
    | .error why => .error why
    | .ok rotated => ChainKeys.sealRows k tenant
        { link := r.hash, want := l.want + 1, rotated := rotated,
          opened := if tenant = [] ∧ r.action = actionChainOpened then l.opened.add r.subject 1
            else l.opened } rows

/-- The state an anchor is signed over: none when it carries nothing. -/
def sealedState (st : AnchorState) : Bytes :=
  if st.opened.entries ≠ [] ∨ st.rotated then marshalAnchorState st else []

/-- `SealAnchor`: checks what a prune would remove, then signs its anchor. -/
def ChainKeys.sealAnchor (k : ChainKeys) : AuditAnchorSealFunc := fun prev pruned =>
  match pruned.getLast? with
  | none => .error (errChainBroken "nothing to prune")
  | some last => match k.checkAnchor C prev with
    | .error why => .error (errChainBroken why)
    | .ok st =>
      if !k.check C prev.mac .head prev.tenantID prev.seq prev.hash [] then
        .error (errChainBroken "the head's signature does not verify")
      else if last.seq > prev.seq then
        .error (errChainBroken s!"row {last.seq} lies past the chain's head (at {prev.seq})")
      else if last.seq = prev.seq ∧ last.hash ≠ prev.hash then
        .error (errChainBroken "the head does not match the last row")
      else match k.sealRows C prev.tenantID
          { link := prev.anchorHash, want := prev.anchorSeq + 1, rotated := st.rotated,
            opened := st.opened } pruned with
        | .error why => .error (errChainBroken why)
        | .ok l =>
          let state := sealedState { opened := l.opened, rotated := l.rotated }
          .ok {
            state := state
            mac := k.sign C .anchor prev.tenantID last.seq last.hash [state]
            headMAC := if last.seq = prev.seq then k.sign C .head prev.tenantID prev.seq prev.hash []
              else [] }

end

/-! ## Verification -/

/-- `VerifyReport`. -/
structure VerifyReport where
  tenant : Bytes
  ok : Bool := true
  rows : Int := 0
  anchorSeq : Int := 0
  headSeq : Int := 0
  breakSeq : Int := 0
  reason : String := ""
  anchorState : Bytes := []
  noOpening : Bool := false

def VerifyReport.broken (r : VerifyReport) (seq : Int) (reason : String) : VerifyReport :=
  { r with ok := false, breakSeq := seq, reason := reason }

/-- `verifyPage`: how many rows verification reads at a time. -/
def verifyPage : Nat := 500

/-- Where the walk over a chain's rows stands. -/
structure Walk where
  prev : Bytes
  want : Int
  rotated : Bool
  rows : Int := 0

/-- How a walk ends: past the last row it could read, at a link that does not hold,
or (never, with the fuel `verifyChain` gives it) out of fuel. -/
inductive WalkEnd
  | walked (w : Walk)
  | broken (w : Walk) (why : String)
  | outOfFuel

section
variable (C : Crypto)

/-- The inner loop, over one page; rows past the head are not walked. -/
def ChainKeys.walkPage (k : ChainKeys) (tenant : Bytes) (headSeq : Int) :
    Walk → List AuditEventRow → WalkEnd
  | w, [] => .walked w
  | w, row :: rows =>
    if w.want > headSeq then .walked w
    else match k.checkLink C tenant w.prev w.want row w.rotated with
      | .error why => .broken w why
      | .ok rotated => ChainKeys.walkPage k tenant headSeq
          { prev := row.hash, want := w.want + 1, rotated := rotated, rows := w.rows + 1 } rows

/-- The outer loop, page by page. -/
def ChainKeys.walk (k : ChainKeys) (s : AuditStore) (tenant : Bytes) (headSeq : Int) :
    Nat → Walk → WalkEnd
  | 0, _ => .outOfFuel
  | fuel + 1, w =>
    if w.want ≤ headSeq then
      match s.auditEventsList tenant (w.want - 1) verifyPage with
      | [] => .walked w
      | row :: rows => match k.walkPage C tenant headSeq w (row :: rows) with
        | .walked w => ChainKeys.walk k s tenant headSeq fuel w
        | e => e
    else .walked w

/-- `Registry`: how many times the operator chain says each chain was opened. -/
structure Registry where
  openings : TenantCounts := ∅

/-- What the operator chain's record says of a tenant chain, before its rows are
looked at: a report when that is a break already. -/
def checkOpening (rep : VerifyReport) (tenant : Bytes) (n : Int) (found : Bool) (headSeq : Int) :
    Option VerifyReport :=
  if tenant = [] then none
  else if n > 1 then
    some (rep.broken 1 s!"the chain was opened again {n - 1} times: its earlier history was removed")
  else if n = 1 ∧ found = false then
    some (rep.broken 1
      "the chain disappeared: the operator chain records its opening, but it has no head")
  else if n = 1 ∧ headSeq = 0 then
    some (rep.broken 1 "the chain was opened but its head is empty")
  else if n = 0 ∧ found = true then
    some { rep.broken 1 "the operator chain has no record of this chain's opening" with
      noOpening := true }
  else none

/-- What is left to check once the walk is over: that it reached the head, that the
head is the last row's and signed, and that no row lies past it. -/
def ChainKeys.checkHead (k : ChainKeys) (s : AuditStore) (tenant : Bytes) (head : AuditHead)
    (rep : VerifyReport) (w : Walk) : VerifyReport :=
  if w.want ≤ head.seq then
    rep.broken w.want s!"the chain ends at row {w.want - 1} but its head is at {head.seq}"
  else if w.prev ≠ head.hash then
    rep.broken head.seq "the head does not match the last row"
  else
    let by' := k.which C head.mac .head tenant head.seq head.hash []
    if head.seq > 0 ∧ (by' = .none ∨ (w.rotated = true ∧ by' = .previous)) then
      rep.broken head.seq "the head's signature does not verify"
    else match s.auditEventsList tenant head.seq 1 with
      | [] => rep
      | past :: _ => match s.auditHeadGet tenant with
        | none => rep.broken past.seq s!"row {past.seq} lies past the chain's head (at {head.seq})"
        | some now =>
          if now.seq < past.seq then
            rep.broken past.seq s!"row {past.seq} lies past the chain's head (at {head.seq})"
          else rep

/-- The part of `verifyChain` after the registry's check. -/
def ChainKeys.verifyRows (k : ChainKeys) (s : AuditStore) (tenant : Bytes) (head : AuditHead)
    (rep : VerifyReport) : Except String VerifyReport :=
  match k.checkAnchor C head with
  | .error why => .ok (rep.broken (max head.anchorSeq 1) why)
  | .ok st =>
    let low := if head.anchorSeq > 0 then
        ((s.auditEventsList tenant 0 1).filter fun r => decide (r.seq ≤ head.anchorSeq)).head?
      else none
    match low with
    | some r => .ok (rep.broken r.seq
        s!"row {r.seq} lies below the retention anchor (at {head.anchorSeq})")
    | none =>
      let rep := { rep with anchorState := head.anchorState }
      match k.walk C s tenant head.seq ((head.seq - head.anchorSeq).toNat + 1)
          { prev := head.anchorHash, want := head.anchorSeq + 1, rotated := st.rotated } with
      | .outOfFuel => .error "out of fuel"
      | .broken w why => .ok ({ rep with rows := w.rows }.broken w.want why)
      | .walked w => .ok (k.checkHead C s tenant head { rep with rows := w.rows } w)

/-- `verifyChain`. -/
def ChainKeys.verifyChain (k : ChainKeys) (s : AuditStore) (tenant : Bytes) (reg : Registry) :
    Except String VerifyReport :=
  if k.current = [] then .error "no audit chain key: set LOOMCYCLE_SECRET_KEY"
  else
    let found := (s.auditHeadGet tenant).isSome
    let head := { (s.auditHeadGet tenant).getD { tenantID := tenant } with tenantID := tenant }
    let rep : VerifyReport := { tenant := tenant, anchorSeq := head.anchorSeq, headSeq := head.seq }
    let orphan := if found then none else (s.auditEventsList tenant 0 1).head?
    match orphan with
    | some r => .ok (rep.broken r.seq "the chain has rows but no head")
    | none => match checkOpening rep tenant (reg.openings.count tenant) found head.seq with
      | some rep => .ok rep
      | none => k.verifyRows C s tenant head rep

/-- The rows of one page that lie within the verified range, counted. The flag says
that a row past it was met, which ends the reading. -/
def countOpenings (headSeq : Int) : TenantCounts → Int → List AuditEventRow → TenantCounts × Int × Bool
  | m, after, [] => (m, after, false)
  | m, after, row :: rows =>
    if row.seq > headSeq then (m, after, true)
    else countOpenings headSeq (if row.action = actionChainOpened then m.add row.subject 1 else m)
      row.seq rows

/-- The loop of `ReadRegistry` over the operator chain's rows. -/
def readOpenings (s : AuditStore) (headSeq : Int) : Nat → TenantCounts → Int → Except String TenantCounts
  | 0, _, _ => .error "out of fuel"
  | fuel + 1, m, after =>
    if after < headSeq then
      let rows := s.auditEventsList [] after verifyPage
      let (m, after, past) := countOpenings headSeq m after rows
      if past || rows.length < verifyPage then .ok m
      else readOpenings s headSeq fuel m after
    else .ok m

/-- `ReadRegistry`: verifies the operator chain and, when it holds, reads the
registry from the rows it verified. -/
def ChainKeys.readRegistry (k : ChainKeys) (s : AuditStore) :
    Except String (Registry × VerifyReport) :=
  match k.verifyChain C s [] {} with
  | .error e => .error e
  | .ok op =>
    if !op.ok then .ok ({}, op)
    else match decodeAnchorState op.anchorState with
      | none => .error "audit: the operator chain's anchor state does not decode"
      | some st =>
        match readOpenings s op.headSeq ((op.headSeq - op.anchorSeq).toNat + 1)
            (st.opened.entries.foldl (fun m e => m.add e.1 e.2) ∅) op.anchorSeq with
        | .error e => .error e
        | .ok m => .ok ({ openings := m }, op)

/-- `operatorChainBroken`. -/
def operatorChainBroken (tenant : Bytes) (op : VerifyReport) : VerifyReport :=
  ({ tenant := tenant } : VerifyReport).broken 1
    ("the operator chain does not verify (row " ++ toString op.breakSeq ++ ": " ++ op.reason ++
      "), so this chain's registration cannot be checked")

/-- `verifyWithRetry`. -/
def ChainKeys.verifyWithRetry (k : ChainKeys) (s : AuditStore) (tenant : Bytes) (reg : Registry) :
    Except String VerifyReport :=
  match k.verifyChain C s tenant reg with
  | .error e => .error e
  | .ok rep =>
    if rep.ok || !rep.noOpening then .ok rep
    else match k.readRegistry C s with
      | .error e => .error e
      | .ok (reg, op) =>
        if !op.ok then .ok (operatorChainBroken tenant op)
        else k.verifyChain C s tenant reg

/-- `Verify`. -/
def ChainKeys.verify (k : ChainKeys) (s : AuditStore) (tenant : Bytes) :
    Except String VerifyReport :=
  if tenant = [] then k.verifyChain C s [] {}
  else match k.readRegistry C s with
    | .error e => .error e
    | .ok (reg, op) =>
      if !op.ok then .ok (operatorChainBroken tenant op)
      else k.verifyWithRetry C s tenant reg

end

end Loomcycle.AuditChain.Chain
