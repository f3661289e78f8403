import Mathlib.Data.Prod.Lex
import Mathlib.Data.String.Basic
import Loomcycle.Lib.Paging
import Loomcycle.Lib.Table

/-! The `memory` table of the store and its reads and raw restore inserts. A column that may be
`NULL`, and a Go time that may be zero, is an `Option`; an instant is a count of
nanoseconds. -/

namespace Loomcycle.Store

open Lib

abbrev Instant := Int

/-- The primary key of `memory` and of `memory_embeddings`. `scope` is the open `MemoryScope`
string: neither table nor envelope is held to the four scopes the code names. -/
@[ext]
structure Address where
  tenantID : String
  scope : String
  scopeID : String
  key : String
deriving DecidableEq

def memoryScopeTenant : String := "tenant"

/-- A row of `memory`, without its provenance columns. -/
structure MemoryRow where
  address : Address
  value : String
  expiresAt : Option Instant
  createdAt : Instant
  updatedAt : Instant
  observedAt : Option Instant
  validAt : Option Instant
  invalidAt : Option Instant
  supersededAt : Option Instant
  accessCount : Nat
  lastAccessedAt : Option Instant
deriving DecidableEq

abbrev MemoryTable := Table MemoryRow.address

/-- What a read answers for a row; `ν` is how the value is looked at: `String` for its JSON
text. -/
structure MemoryEntry (ν : Type) where
  key : String
  value : ν
  expiresAt : Option Instant
  createdAt : Instant
  updatedAt : Instant
  observedAt : Option Instant
  validAt : Option Instant
  invalidAt : Option Instant
  accessCount : Nat
  lastAccessedAt : Option Instant
deriving DecidableEq

def MemoryEntry.map {ν ω : Type} (f : ν → ω) (e : MemoryEntry ν) : MemoryEntry ω :=
  { e with value := f e.value }

/-! ## Reads -/

/-- The row as `MemoryList` answers it. -/
def MemoryRow.listed (r : MemoryRow) : MemoryEntry String where
  key := r.address.key
  value := r.value
  expiresAt := r.expiresAt
  createdAt := r.createdAt
  updatedAt := r.updatedAt
  observedAt := r.observedAt
  validAt := r.validAt
  invalidAt := r.invalidAt
  accessCount := r.accessCount
  lastAccessedAt := r.lastAccessedAt

/-- `MemoryGet` selects no retrieval counters. -/
def MemoryRow.got (r : MemoryRow) : MemoryEntry String :=
  { r.listed with accessCount := 0, lastAccessedAt := none }

/-- `MemoryListAfter` selects the value and the two write times only. -/
def MemoryRow.paged (r : MemoryRow) : MemoryEntry String where
  key := r.address.key
  value := r.value
  expiresAt := none
  createdAt := r.createdAt
  updatedAt := r.updatedAt
  observedAt := none
  validAt := none
  invalidAt := none
  accessCount := 0
  lastAccessedAt := none

/-- `none` is `ErrNotFound`. The row is past its time only strictly after it. -/
def memoryGet (t : MemoryTable) (now : Instant) (a : Address) : Option (MemoryEntry String) :=
  match t.find a with
  | none => none
  | some r =>
    if r.supersededAt.isSome then none
    else if r.expiresAt.any (· < now) then none
    else some r.got

/-- An element of a `LIKE` pattern. -/
inductive Like
  | lit (c : Char)
  | one
  | any

/-- A pattern with `ESCAPE '\'`. -/
def likePattern : List Char → List Like
  | [] => []
  | '\\' :: c :: p => .lit c :: likePattern p
  | '%' :: p => .any :: likePattern p
  | '_' :: p => .one :: likePattern p
  | c :: p => .lit c :: likePattern p

/-- SQLite's `LIKE` takes the two cases of an ASCII letter as one. -/
def like : List Like → List Char → Bool
  | [], s => s.isEmpty
  | .any :: p, s => s.tails.any (like p)
  | .one :: _, [] => false
  | .one :: p, _ :: s => like p s
  | .lit _ :: _, [] => false
  | .lit c :: p, d :: s => c.toLower = d.toLower && like p s

def escapeLikePrefix (start : String) : List Char :=
  start.toList.flatMap fun c => if c = '\\' ∨ c = '%' ∨ c = '_' then ['\\', c] else [c]

/-- The scope a listing reads and the prefix it asks for. -/
structure Listing where
  tenantID : String
  scope : String
  scopeID : String
  start : String

/-- The `WHERE` clause the listings share. -/
def Listing.takes (q : Listing) (now : Instant) (r : MemoryRow) : Bool :=
  r.address.tenantID = q.tenantID && r.address.scope = q.scope && r.address.scopeID = q.scopeID &&
    like (likePattern (escapeLikePrefix q.start ++ ['%'])) r.address.key.toList &&
    (r.expiresAt.all (now < ·)) && r.supersededAt.isNone

/-- The entries in the order of their keys, and whether the limit cut them. -/
def memoryList (t : MemoryTable) (now : Instant) (q : Listing) (limit : Int) :
    List (MemoryEntry String) × Bool :=
  let limit := if limit ≤ 0 then 100 else limit.toNat
  let out := (Paging.page (·.address.key) (limit + 1) (t.rows.filter (q.takes now))).map
    MemoryRow.listed
  if limit < out.length then (out.take limit, true) else (out, false)

def memoryListAfter (t : MemoryTable) (now : Instant) (q : Listing) (afterKey : String)
    (limit : Int) : List (MemoryEntry String) :=
  let limit := if limit ≤ 0 then 200 else if 1000 < limit then 1000 else limit.toNat
  (Paging.page (·.address.key) limit
    (t.rows.filter fun r => q.takes now r && afterKey < r.address.key)).map MemoryRow.paged

/-! ## Snapshot reads -/

/-- Every row not past its time, whatever its `superseded_at`. -/
def snapshotReadMemory (t : MemoryTable) (now : Instant) : List MemoryRow :=
  (t.rows.filter fun r => r.expiresAt.all (now < ·)).insertionSort fun r r' =>
    toLex (r.address.scope, toLex (r.address.scopeID, r.address.key)) ≤
      toLex (r'.address.scope, toLex (r'.address.scopeID, r'.address.key))

/-! ## Embeddings and snapshot inserts -/

/-- A row of `memory_embeddings`; the vector as the bits of its floats. -/
structure MemoryEmbedding where
  address : Address
  provider : String
  model : String
  dimension : Int
  vector : List UInt32
  embedText : String
  createdAt : Instant
deriving DecidableEq

abbrev EmbeddingTable := Table MemoryEmbedding.address

/-- The two tables. An embedding has its row; a store without vector support has none to read or
write. -/
@[ext]
structure MemoryStore where
  memory : MemoryTable
  embeddings : EmbeddingTable
  supportsVectors : Bool
  based : ∀ a, (embeddings.find a).isSome → (memory.find a).isSome

def MemoryStore.empty (supportsVectors : Bool) : MemoryStore :=
  ⟨.empty, .empty, supportsVectors, nofun⟩

def MemoryStore.insert (s : MemoryStore) (r : MemoryRow) : MemoryStore :=
  { s with
    memory := s.memory.insertOrIgnore r
    based := by
      intro a ha
      rw [Table.find_insertOrIgnore, Option.isSome_or, s.based a ha, Bool.true_or] }

/-- The store with the row in it unless its key was taken, and whether it was inserted. The
columns the statement does not name take their defaults. -/
def snapshotRestoreMemory (s : MemoryStore) (r : MemoryRow) : Except String (MemoryStore × Bool) :=
  if r.address.scope = "" ∨ r.address.key = "" then
    .error "snapshot restore memory: scope and key required"
  else
    let r := { r with supersededAt := none, accessCount := 0, lastAccessedAt := none }
    .ok (s.insert r, (s.memory.find r.address).isNone)

/-- `ON CONFLICT DO UPDATE`: the embedding replaces the one at its address. The base row has to
exist. -/
def memoryEmbedSet (s : MemoryStore) (e : MemoryEmbedding) : Except String MemoryStore :=
  if ¬ s.supportsVectors then .error "memory: vector index not configured"
  else if e.dimension ≤ 0 then .error "memory_embeddings: dimension must be > 0"
  else if (e.vector.length : Int) ≠ e.dimension then
    .error "memory_embeddings: vector length differs from the declared dimension"
  else if h : (s.memory.find e.address).isSome then
    .ok { s with
      embeddings := s.embeddings.upsert e
      based := by
        intro a ha
        rw [Table.find_upsert] at ha
        split at ha
        · next he => exact he ▸ h
        · exact s.based a ha }
  else .error "MemoryEmbedSet: violates foreign key constraint"

end Loomcycle.Store
