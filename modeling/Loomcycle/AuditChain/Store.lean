import Loomcycle.Lib.Encoding

/-! # The audit tables and their transactions

`internal/store/audit.go` and `internal/store/sqlite/audit.go`. A store holds one
head a tenant and the tenant's rows in `seq` order; the primary keys are part of
the type, so no content of the tables can break them. Everything else may be
anything: a store is what a database writer left there.

A transaction body works on a copy and may fail at any statement (`Fault`);
`transact` keeps the tables as they were unless the body got to its commit. -/

namespace Loomcycle.AuditChain.Store
open Lib.Encoding

/-- `store.AuditEventRow`; `ts` is the time in unix nanoseconds, as stored. -/
structure AuditEventRow where
  tenantID : Bytes
  seq : Int
  ts : Int
  actor : Bytes
  action : Bytes
  subject : Bytes
  payload : Bytes
  prevHash : Bytes
  hash : Bytes
  mac : Bytes
  deriving DecidableEq, Repr

/-- `store.AuditHead`. -/
structure AuditHead where
  tenantID : Bytes
  seq : Int := 0
  hash : Bytes := []
  mac : Bytes := []
  anchorSeq : Int := 0
  anchorHash : Bytes := []
  anchorMAC : Bytes := []
  anchorState : Bytes := []
  deriving DecidableEq, Repr

/-- The range of a 64-bit column. -/
def inInt64 (n : Int) : Prop := -2 ^ 63 ≤ n ∧ n < 2 ^ 63

instance (n : Int) : Decidable (inInt64 n) := inferInstanceAs (Decidable (_ ∧ _))

/-- A sum of Go `int64`s. -/
def wrapInt64 (n : Int) : Int := n.bmod (2 ^ 64)

/-- The tables `audit_heads` and `audit_events`. -/
structure AuditStore where
  heads : Bytes → Option AuditHead
  events : Bytes → List AuditEventRow
  headTenant : ∀ t h, heads t = some h → h.tenantID = t
  rowTenant : ∀ t, ∀ r ∈ events t, r.tenantID = t
  rowSeq : ∀ t, ∀ r ∈ events t, inInt64 r.seq
  sorted : ∀ t, (events t).Pairwise fun a b => a.seq < b.seq

def AuditStore.empty : AuditStore where
  heads _ := none
  events _ := []
  headTenant := nofun
  rowTenant := nofun
  rowSeq := nofun
  sorted _ := .nil

/-- `store.AuditSealFunc`: fills a row's hash and MAC and returns the head's MAC. -/
abbrev AuditSealFunc := AuditEventRow → Except String (AuditEventRow × Bytes)

/-- What a prune's seal returns: the new anchor's state and MAC, and a head MAC to
write (empty: none). -/
structure AnchorSeal where
  state : Bytes
  mac : Bytes
  headMAC : Bytes
  deriving DecidableEq, Repr

/-- `store.AuditAnchorSealFunc`. -/
abbrev AuditAnchorSealFunc := AuditHead → List AuditEventRow → Except String AnchorSeal

/-! ## Statements -/

/-- `UPDATE audit_heads SET … WHERE tenant_id = t`. -/
def AuditStore.updateHead (s : AuditStore) (t : Bytes) (f : AuditHead → AuditHead) : AuditStore :=
  { s with
    heads := Function.update s.heads t ((s.heads t).map fun h => { f h with tenantID := t })
    headTenant := by
      refine (Function.forall_update_iff s.heads fun u o => ∀ h, o = some h → h.tenantID = u).mpr
        ⟨fun h hu => ?_, fun u _ => s.headTenant u⟩
      obtain ⟨g, _, rfl⟩ := Option.map_eq_some_iff.mp hu
      rfl }

/-- `INSERT INTO audit_heads (tenant_id) VALUES (t)`, with the columns' defaults. -/
def AuditStore.insertHead (s : AuditStore) (t : Bytes) : AuditStore :=
  { s with
    heads := Function.update s.heads t (some { tenantID := t })
    headTenant := by
      refine (Function.forall_update_iff s.heads fun u o => ∀ h, o = some h → h.tenantID = u).mpr
        ⟨fun h hu => ?_, fun u _ => s.headTenant u⟩
      cases hu
      rfl }

/-- The row at its place in `seq` order; none when the primary key is taken. -/
def insertSorted (r : AuditEventRow) : List AuditEventRow → Option (List AuditEventRow)
  | [] => some [r]
  | x :: xs =>
    if r.seq < x.seq then some (r :: x :: xs)
    else if r.seq = x.seq then none
    else (insertSorted r xs).map (x :: ·)

variable {l' l : List AuditEventRow} {r : AuditEventRow}

theorem mem_insertSorted {x : AuditEventRow} (h : insertSorted r l = some l') :
    x ∈ l' ↔ x = r ∨ x ∈ l := by
  induction l generalizing l' with
  | nil => simp only [insertSorted, Option.some.injEq] at h; subst h; simp
  | cons y ys ih =>
    simp only [insertSorted] at h
    split at h
    · cases h; simp
    · split at h
      · cases h
      · obtain ⟨m, hm, rfl⟩ := Option.map_eq_some_iff.mp h
        rw [List.mem_cons, ih hm, List.mem_cons]
        exact or_left_comm

theorem insertSorted_sorted (hl : l.Pairwise fun a b => a.seq < b.seq)
    (h : insertSorted r l = some l') : l'.Pairwise fun a b => a.seq < b.seq := by
  induction l generalizing l' with
  | nil => simp only [insertSorted, Option.some.injEq] at h; subst h; simp
  | cons y ys ih =>
    obtain ⟨hy, hys⟩ := List.pairwise_cons.mp hl
    simp only [insertSorted] at h
    split at h
    · rename_i hlt
      cases h
      refine List.pairwise_cons.mpr ⟨fun z hz => ?_, hl⟩
      rcases List.mem_cons.mp hz with rfl | hz
      · exact hlt
      · exact hlt.trans (hy z hz)
    · split at h
      · cases h
      · obtain ⟨m, hm, rfl⟩ := Option.map_eq_some_iff.mp h
        refine List.pairwise_cons.mpr ⟨fun z hz => ?_, ih hys hm⟩
        rcases (mem_insertSorted hm).mp hz with rfl | hz
        · omega
        · exact hy z hz

/-- `INSERT INTO audit_events`: refused when the primary key is taken, or for a
`seq` the column cannot hold. -/
def AuditStore.insertEvent (s : AuditStore) (r : AuditEventRow) : Option AuditStore :=
  match h : insertSorted r (s.events r.tenantID) with
  | none => none
  | some l =>
    if hr : inInt64 r.seq then some
      { s with
        events := Function.update s.events r.tenantID l
        rowTenant := by
          refine (Function.forall_update_iff s.events fun t l => ∀ x ∈ l, x.tenantID = t).mpr
            ⟨fun x hx => ?_, fun t _ => s.rowTenant t⟩
          rcases (mem_insertSorted h).mp hx with rfl | hx
          · rfl
          · exact s.rowTenant _ x hx
        rowSeq := by
          refine (Function.forall_update_iff s.events fun _ l => ∀ x ∈ l, inInt64 x.seq).mpr
            ⟨fun x hx => ?_, fun t _ => s.rowSeq t⟩
          rcases (mem_insertSorted h).mp hx with rfl | hx
          · exact hr
          · exact s.rowSeq _ x hx
        sorted := (Function.forall_update_iff s.events fun _ l => l.Pairwise _).mpr
          ⟨insertSorted_sorted (s.sorted _) h, fun t _ => s.sorted t⟩ }
    else none

/-- `DELETE FROM audit_events WHERE tenant_id = t AND seq > lo AND seq <= hi`. -/
def AuditStore.deleteEvents (s : AuditStore) (t : Bytes) (lo hi : Int) : AuditStore :=
  { s with
    events := Function.update s.events t
      ((s.events t).filter fun r => !(decide (lo < r.seq) && decide (r.seq ≤ hi)))
    rowTenant := (Function.forall_update_iff s.events fun u l => ∀ r ∈ l, r.tenantID = u).mpr
      ⟨fun r hr => s.rowTenant t r (List.mem_filter.mp hr).1, fun u _ => s.rowTenant u⟩
    rowSeq := (Function.forall_update_iff s.events fun _ l => ∀ r ∈ l, inInt64 r.seq).mpr
      ⟨fun r hr => s.rowSeq t r (List.mem_filter.mp hr).1, fun u _ => s.rowSeq u⟩
    sorted := (Function.forall_update_iff s.events fun _ l => l.Pairwise _).mpr
      ⟨(s.sorted t).filter _, fun u _ => s.sorted u⟩ }

/-- The rows of `t` with `lo < seq ≤ hi`, in order. -/
def AuditStore.range (s : AuditStore) (t : Bytes) (lo hi : Int) : List AuditEventRow :=
  (s.events t).filter fun r => decide (lo < r.seq) && decide (r.seq ≤ hi)

/-! ## Reads -/

/-- `auditListDefault`. -/
def auditListDefault : Nat := 500

/-- `AuditHeadGet`; none is `ErrNotFound`. -/
def AuditStore.auditHeadGet (s : AuditStore) (t : Bytes) : Option AuditHead := s.heads t

/-- `AuditEventsList`: rows with `Seq > afterSeq`, ascending, at most `limit`. -/
def AuditStore.auditEventsList (s : AuditStore) (t : Bytes) (afterSeq : Int) (limit : Nat) :
    List AuditEventRow :=
  let limit := if limit = 0 then auditListDefault else limit
  ((s.events t).filter fun r => decide (afterSeq < r.seq)).take limit

/-! ## Transactions -/

/-- The statements of the two transactions. -/
inductive Stmt
  | conn
  | begin
  | ensureHead
  | readHead
  | insert
  | moveHead
  | find
  | read
  | delete
  | anchor
  | head
  | commit
  deriving DecidableEq, Repr

/-- Which statements fail, with the driver's error. An append runs some of them
once a row; the count tells the runs apart. -/
abbrev Fault := Stmt → Nat → Option String

def exec (fail : Fault) (st : Stmt) (n : Nat) (what : String) : Except String Unit :=
  match fail st n with
  | some e => .error (what ++ e)
  | none => .ok ()

/-- `BEGIN IMMEDIATE … COMMIT`, with the deferred `ROLLBACK` of a body that returned
early: the tables after it, and what the caller sees. -/
def transact {α : Type} (s : AuditStore) (body : Except String (AuditStore × α)) :
    AuditStore × Except String α :=
  match body with
  | .ok (s', a) => (s', .ok a)
  | .error e => (s, .error e)

theorem bind_ok {ε α β : Type} {x : Except ε α} {f : α → Except ε β} {b : β}
    (h : (x >>= f) = .ok b) : ∃ a, x = .ok a ∧ f a = .ok b := by
  cases x with
  | error e => cases h
  | ok a => exact ⟨a, rfl, h⟩

/-! ## AuditAppend -/

/-- `auditEnsureHead`: creates the head if there is none, reporting whether it did. -/
def auditEnsureHead (fail : Fault) (n : Nat) (s : AuditStore) (tenantID : Bytes) :
    Except String (AuditStore × Bool) := do
  exec fail .ensureHead n "audit append: head: "
  match s.heads tenantID with
  | some _ => return (s, false)
  | none => return (s.insertHead tenantID, true)

/-- `auditAppendLocked`: one row on top of the head. -/
def auditAppendLocked (fail : Fault) (n : Nat) (sealFn : AuditSealFunc) (s : AuditStore)
    (row : AuditEventRow) : Except String (AuditStore × AuditEventRow) := do
  exec fail .readHead n "audit append: read head: "
  match s.heads row.tenantID with
  | none => throw "audit append: read head: sql: no rows in result set"
  | some head =>
    match sealFn { row with seq := head.seq + 1, prevHash := head.hash } with
    | .error e => throw ("audit append: seal: " ++ e)
    | .ok (row, headMAC) =>
      exec fail .insert n "audit append: insert: "
      match s.insertEvent row with
      | none => throw "audit append: insert: UNIQUE constraint failed: audit_events.tenant_id, audit_events.seq"
      | some s =>
        exec fail .moveHead n "audit append: move head: "
        return (s.updateHead row.tenantID fun h =>
          { h with seq := row.seq, hash := row.hash, mac := headMAC }, row)

/-- The loop of `AuditAppend` over its rows. -/
def auditAppendRows (fail : Fault) (sealFn : AuditSealFunc) :
    Nat → AuditStore → List AuditEventRow → Except String (AuditStore × List AuditEventRow)
  | _, s, [] => .ok (s, [])
  | n, s, row :: rows => do
    let (s, r) ← auditAppendLocked fail n sealFn s row
    let (s, rs) ← auditAppendRows fail sealFn (n + 1) s rows
    return (s, r :: rs)

/-- The opening record of a chain whose head this append created, on the chain it
names: the row as written, if one was due. -/
def auditAppendOpened (fail : Fault) (sealFn : AuditSealFunc) (s : AuditStore) (tenant : Bytes)
    (created : Bool) (opened : Option AuditEventRow) :
    Except String (AuditStore × List AuditEventRow) :=
  match opened with
  | none => .ok (s, [])
  | some o =>
    if created && o.tenantID != tenant then do
      let (s, _) ← auditEnsureHead fail 1 s o.tenantID
      let (s, r) ← auditAppendLocked fail 0 sealFn s o
      return (s, [r])
    else .ok (s, [])

/-- What an append wrote: the rows it returns, and the opening record it does not. -/
structure Appended where
  opened : List AuditEventRow
  written : List AuditEventRow

def auditAppendBody (fail : Fault) (s : AuditStore) (rows : List AuditEventRow)
    (sealFn : AuditSealFunc) (opened : Option AuditEventRow) :
    Except String (AuditStore × Appended) :=
  match rows with
  | [] => throw "audit append: rows and seal are required"
  | r :: _ => do
    let tenant := r.tenantID
    if rows.any fun r => r.action == [] || r.tenantID != tenant then
      throw "audit append: every row needs an action and the same tenant"
    exec fail .conn 0 "audit append: "
    exec fail .begin 0 "audit append: begin: "
    let (s, created) ← auditEnsureHead fail 0 s tenant
    let (s, op) ← auditAppendOpened fail sealFn s tenant created opened
    let (s, written) ← auditAppendRows fail sealFn 1 s rows
    exec fail .commit 0 "audit append: commit: "
    return (s, ⟨op, written⟩)

/-- `AuditAppend`. -/
def auditAppend (fail : Fault) (s : AuditStore) (rows : List AuditEventRow)
    (sealFn : AuditSealFunc) (opened : Option AuditEventRow) : AuditStore × Except String Appended :=
  transact s (auditAppendBody fail s rows sealFn opened)

/-! ## AuditPrune -/

/-- `auditPruneDefault`. -/
def auditPruneDefault : Int := 5000

/-- `SELECT MAX(seq) … WHERE seq > lo AND seq <= hi AND ts < before`. -/
def AuditStore.findLast (s : AuditStore) (t : Bytes) (lo hi before : Int) : Option Int :=
  ((s.range t lo hi).filter fun r => decide (r.ts < before)).getLast?.map (·.seq)

/-- The writes of a prune that was sealed, `last` being the last row it removes. -/
def pruneWrite (fail : Fault) (s : AuditStore) (t : Bytes) (head : AuditHead)
    (last : AuditEventRow) (sealed : AnchorSeal) : Except String (AuditStore × Nat) := do
  exec fail .delete 0 "audit prune: delete: "
  let n := (s.range t head.anchorSeq last.seq).length
  let s := s.deleteEvents t head.anchorSeq last.seq
  exec fail .anchor 0 "audit prune: anchor: "
  let s := s.updateHead t fun h =>
    { h with anchorSeq := last.seq, anchorHash := last.hash, anchorMAC := sealed.mac,
             anchorState := sealed.state }
  if sealed.headMAC = [] then
    exec fail .commit 0 "audit prune: commit: "
    return (s, n)
  else
    exec fail .head 0 "audit prune: head: "
    let s := s.updateHead t fun h => { h with mac := sealed.headMAC }
    exec fail .commit 0 "audit prune: commit: "
    return (s, n)

def auditPruneBody (fail : Fault) (s : AuditStore) (tenantID : Bytes) (before limit : Int)
    (sealFn : AuditAnchorSealFunc) : Except String (AuditStore × Nat) := do
  let limit := if limit ≤ 0 then auditPruneDefault else limit
  exec fail .conn 0 "audit prune: "
  exec fail .begin 0 "audit prune: begin: "
  exec fail .readHead 0 "audit prune: head: "
  match s.heads tenantID with
  | none => return (s, 0)
  | some head =>
    exec fail .find 0 "audit prune: find: "
    match s.findLast tenantID head.anchorSeq (wrapInt64 (head.anchorSeq + limit)) before with
    | none => return (s, 0)
    | some last =>
      exec fail .read 0 "audit prune: read: "
      let pruned := s.range tenantID head.anchorSeq last
      match sealFn head pruned with
      | .error e => throw ("audit prune: " ++ e)
      | .ok sealed => match pruned.getLast? with
        | none => throw "index out of range"
        | some lastRow => pruneWrite fail s tenantID head lastRow sealed

/-- `AuditPrune`. -/
def auditPrune (fail : Fault) (s : AuditStore) (tenantID : Bytes) (before limit : Int)
    (sealFn : AuditAnchorSealFunc) : AuditStore × Except String Nat :=
  transact s (auditPruneBody fail s tenantID before limit sealFn)

end Loomcycle.AuditChain.Store
